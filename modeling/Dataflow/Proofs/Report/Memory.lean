import Dataflow.Proofs.Command.Agreement
import Dataflow.Proofs.Description.Document
import Dataflow.Proofs.Machine.Numbering

/-!
# The memory of a plan

An edge takes its capacity times the size of its elements. Capacities and sizes are words, but nothing
keeps their products, or the sum of these, to words. The total of a plan pairs edges with capacities,
while a report looks the capacity of each edge up by its number; both come to the bytes that the edges
take, cut to words. So they are exact just if the bytes of all edges together are a word, and beyond that
a machine that checks its words does not come to any number.
-/

namespace Dataflow

/-! ## What the edges take -/

namespace Plan

variable {p : Plan}

/-- The bytes that each edge takes. -/
def storages (p : Plan) : List Nat :=
  p.graph.edges.zipIdx.map fun (e, id) ↦ p.room id * e.element.size.toNat

/-- The bytes that all edges take. -/
def storage (p : Plan) : Nat := p.storages.sum

theorem zip_capacities (hlength : p.capacities.length = p.graph.edges.length) :
    p.graph.edges.zip p.capacities = p.graph.edges.zipIdx.map fun (e, id) ↦ (e, p.room id) := by
  apply List.ext_getElem
  · simp [hlength]
  · intro id hid _
    obtain ⟨-, hcapacity⟩ := Nat.lt_min.mp (List.length_zip ▸ hid)
    simp [room, capacity?, hcapacity]

theorem map_zip_capacities (hlength : p.capacities.length = p.graph.edges.length) :
    (p.graph.edges.zip p.capacities).map (fun x ↦ x.2 * x.1.element.size.toNat) = p.storages := by
  rw [zip_capacities hlength, List.map_map]
  rfl

/-- The bytes of a plan are those that its edges take, cut to a word once more in the end. -/
theorem memoryBytes_eq (hlength : p.capacities.length = p.graph.edges.length) :
    p.memoryBytes = Word.wrap p.storage :=
  calc
    p.memoryBytes = Word.wrap (p.storages.map Word.wrap).sum := by
      rw [← map_zip_capacities hlength, List.map_map]
      rfl
    _ = Word.wrap p.storage := (List.sum_nat_mod p.storages Word.modulus).symm

theorem memoryBytes_lt (p : Plan) : p.memoryBytes < Word.modulus := Word.wrap_lt _

/-- Each edge takes a word when all of them together do. -/
theorem lt_modulus_of_mem_storages (h : p.storage < Word.modulus) {n : Nat} (hn : n ∈ p.storages) :
    n < Word.modulus :=
  Nat.lt_of_le_of_lt (List.le_sum_of_mem hn) h

theorem map_wrap_storages (h : p.storage < Word.modulus) : p.storages.map Word.wrap = p.storages :=
  calc
    p.storages.map Word.wrap = p.storages.map id :=
      List.map_congr_left fun _ hn ↦ Word.wrap_of_lt (lt_modulus_of_mem_storages h hn)
    _ = p.storages := List.map_id p.storages

end Plan

/-! ## What a report tells -/

/-- A plan and a report on it tell what the edges take, edge by edge and in all, where `cut` leaves of a
number what is told of it. -/
structure Report.TellsMemory (r : Report) (p : Plan) (cut : Nat → Nat) : Prop where
  capacities : r.edges.map (·.capacity.toNat) = p.capacities
  bytes : r.edges.map (·.bytes.toNat) = p.storages.map cut
  memory : p.memoryBytes = cut p.storage
  total : r.memoryBytes.toNat = p.memoryBytes
  sum : r.memoryBytes.toNat = cut (r.edges.map (·.bytes.toNat)).sum

namespace Report

variable {p : Plan} (name : String)

theorem capacities_ofPlan (hlength : p.capacities.length = p.graph.edges.length)
    (hwords : ∀ c ∈ p.capacities, c < Word.modulus) :
    (ofPlan name p).edges.map (·.capacity.toNat) = p.capacities := by
  apply List.ext_getElem
  · simp [ofPlan, hlength]
  · intro id _ hid
    have hword : p.capacities[id] < 2 ^ 64 := hwords _ (List.getElem_mem hid)
    simpa [ofPlan, edge, Plan.capacity?, hid] using hword

theorem bytes_ofPlan (p : Plan) :
    (ofPlan name p).edges.map (·.bytes.toNat) = p.storages.map Word.wrap := by
  have hline (e : Edge) (id : EdgeId) :
      (edge p e id).bytes.toNat = Word.wrap (p.room id * e.element.size.toNat) :=
    UInt64.toNat_ofNat_of_lt (Word.wrap_lt _)
  simp only [ofPlan, Plan.storages, List.map_map]
  apply List.map_congr_left
  intro x _
  exact hline x.1 x.2

theorem memoryBytes_ofPlan (p : Plan) : (ofPlan name p).memoryBytes.toNat = p.memoryBytes :=
  UInt64.toNat_ofNat_of_lt p.memoryBytes_lt

theorem tellsMemory_wrap (hlength : p.capacities.length = p.graph.edges.length)
    (hwords : ∀ c ∈ p.capacities, c < Word.modulus) : (ofPlan name p).TellsMemory p Word.wrap where
  capacities := capacities_ofPlan name hlength hwords
  bytes := bytes_ofPlan name p
  memory := Plan.memoryBytes_eq hlength
  total := memoryBytes_ofPlan name p
  sum := by
    rw [memoryBytes_ofPlan, bytes_ofPlan, Plan.memoryBytes_eq hlength]
    exact List.sum_nat_mod p.storages Word.modulus

/-- What is cut to words is exact just if all of it together is a word. -/
theorem TellsMemory.exact_iff {r : Report} (h : r.TellsMemory p Word.wrap) :
    r.TellsMemory p id ↔ p.storage < Word.modulus := by
  constructor
  · intro hexact
    calc
      p.storage = p.memoryBytes := hexact.memory.symm
      _ < Word.modulus := p.memoryBytes_lt
  · intro hfits
    have hbytes : r.edges.map (·.bytes.toNat) = p.storages := by
      rw [h.bytes, Plan.map_wrap_storages hfits]
    have hmemory : p.memoryBytes = p.storage := by rw [h.memory, Word.wrap_of_lt hfits]
    refine ⟨h.capacities, ?_, hmemory, h.total, ?_⟩
    · rw [hbytes, List.map_id]
    · rw [h.total, hmemory, hbytes]
      rfl

end Report

/-! ## Checked words -/

namespace Machine

variable {p : Plan}

/-- The bytes of an edge. -/
def edgeBytes (e : Edge) (capacity : Nat) : Computation Nat := word (capacity * e.element.size.toNat)

/-- The bytes of all edges, added up one by one. -/
def memoryBytes (p : Plan) : Computation Nat :=
  (p.graph.edges.zip p.capacities).foldlM
    (fun acc (e, capacity) ↦ do
      let bytes ← edgeBytes e capacity
      word (acc + bytes))
    0

def edgeReport (p : Plan) (e : Edge) (id : EdgeId) : Computation EdgeReport := do
  let bytes ← edgeBytes e ((p.capacity? id).getD 0)
  return { Report.edge p e id with bytes := UInt64.ofNat bytes }

/-- The report on a plan: the lines of its edges, then the firings, and the bytes at last. -/
def report (name : String) (p : Plan) : Computation Report := do
  let edges ← p.graph.edges.zipIdx.mapM fun (e, id) ↦ edgeReport p e id
  let activations ← total p.repetitions
  let memoryBytes ← memoryBytes p
  return { Report.ofPlan name p with
    edges
    activations := UInt64.ofNat activations
    memoryBytes := UInt64.ofNat memoryBytes }

theorem memoryBytes_eq (hlength : p.capacities.length = p.graph.edges.length) :
    memoryBytes p = word p.storage := by
  have hsum : memoryBytes p = word (0 + ((p.graph.edges.zip p.capacities).map
      fun x ↦ x.2 * x.1.element.size.toNat).foldr (· + ·) 0) := by
    apply foldlM_word_add
    · intro acc x
      exact word_bind_add acc (x.2 * x.1.element.size.toNat)
    · decide
  rw [hsum, Plan.map_zip_capacities hlength, Nat.zero_add]
  rfl

theorem edgeReport_of_lt {e : Edge} {id : EdgeId}
    (h : p.room id * e.element.size.toNat < Word.modulus) :
    edgeReport p e id = .ok (Report.edge p e id) := by
  have hbytes : edgeBytes e (p.room id) = .ok (Plan.edgeBytes e (p.room id)) := by
    rw [edgeBytes, word_of_lt h, Plan.edgeBytes, Word.wrap_of_lt h]
  change (edgeBytes e (p.room id) >>= fun bytes ↦ _) = _
  rw [hbytes]
  rfl

theorem edgeReport_of_le {e : Edge} {id : EdgeId}
    (h : Word.modulus ≤ p.room id * e.element.size.toNat) : edgeReport p e id = stop .overflow := by
  change (word (p.room id * e.element.size.toNat) >>= fun bytes ↦ _) = _
  rw [word_of_le h]
  rfl

/-- The lines of all edges, if each of them takes a word. -/
theorem edgeReports_eq (name : String) (h : ∀ n ∈ p.storages, n < Word.modulus) :
    (p.graph.edges.zipIdx.mapM fun (e, id) ↦ edgeReport p e id) = .ok (Report.ofPlan name p).edges := by
  apply mapM_eq
  intro x hx
  apply edgeReport_of_lt
  exact h _ (List.mem_map_of_mem hx)

theorem edgeReports_stop (h : ∃ n ∈ p.storages, Word.modulus ≤ n) :
    (p.graph.edges.zipIdx.mapM fun (e, id) ↦ edgeReport p e id) = stop .overflow := by
  apply mapM_stop
  · intro x _
    rcases Nat.lt_or_ge (p.room x.2 * x.1.element.size.toNat) Word.modulus with hfits | hwide
    · exact .inr ⟨_, edgeReport_of_lt hfits⟩
    · exact .inl (edgeReport_of_le hwide)
  · obtain ⟨n, hn, hwide⟩ := h
    obtain ⟨x, hx, rfl⟩ := List.mem_map.mp hn
    exact ⟨x, hx, edgeReport_of_le hwide⟩

/-- What an edge takes is part of what all take, so a report fails just if that sum is too large. -/
theorem report_eq (name : String) (hlength : p.capacities.length = p.graph.edges.length)
    (htotal : p.repetitions.total < Word.modulus) :
    report name p =
      if p.storage < Word.modulus then .ok (Report.ofPlan name p) else stop .overflow := by
  rw [report, total_eq htotal, memoryBytes_eq hlength]
  by_cases hlines : ∀ n ∈ p.storages, n < Word.modulus
  · rw [edgeReports_eq name hlines, ok_bind, ok_bind]
    split
    · rename_i hfits
      rw [word_of_lt hfits, ok_bind, ← Word.wrap_of_lt hfits, ← Plan.memoryBytes_eq hlength]
      rfl
    · rename_i hwide
      rw [word_of_le (Nat.le_of_not_lt hwide)]
      rfl
  · have hwide : ∃ n ∈ p.storages, Word.modulus ≤ n := by simpa using hlines
    have hstorage : ¬ p.storage < Word.modulus := fun hfits ↦
      hlines fun n hn ↦ Plan.lt_modulus_of_mem_storages hfits hn
    rw [edgeReports_stop hwide, if_neg hstorage]
    rfl

end Machine

/-! ## Plans of graphs -/

namespace Graph

variable {g : Graph} {o : CompileOptions} {p : Plan}

/-- Whatever the options and the sizes of its elements, a plan and its report tell the capacities as they
are and the bytes cut to words, edge by edge and in all, and the bytes in all are the sum of the lines,
cut to a word. All of this is exact just if the bytes of all edges together are a word. A machine that
checks its words comes to the same total and the same report then, and overflows otherwise. -/
theorem memory_exact_iff_fits (hg : g.Built) (h : g.compile o = .ok p) (name : String) :
    (Report.ofPlan name p).TellsMemory p Word.wrap ∧
      ((Report.ofPlan name p).TellsMemory p id ↔ p.storage < Word.modulus) ∧
      Machine.memoryBytes p = Machine.word p.storage ∧
      Machine.report name p =
        if p.storage < Word.modulus then .ok (Report.ofPlan name p) else Machine.stop .overflow := by
  have hcoherent := hg.coherent
  obtain ⟨hsound, hperiod⟩ := sound_of_compile hcoherent h
  obtain ⟨-, -, -, hcapacities, rfl, -⟩ := exists_of_compile h
  have hwords := hcoherent.capacities_lt hsound.balances hsound.period hcapacities
  have htells := Report.tellsMemory_wrap name hsound.length hwords
  have htotal : p.repetitions.total < Word.modulus :=
    calc
      p.repetitions.total = p.order.length := hsound.period.length_eq.symm
      _ ≤ o.maxPeriod.toNat := hperiod
      _ < Word.modulus := o.maxPeriod.toNat_lt
  exact ⟨htells, htells.exact_iff, Machine.memoryBytes_eq hsound.length,
    Machine.report_eq name hsound.length htotal⟩

end Graph

/-! ## Elements of great size -/

namespace Bulky

section

variable (size : UInt64) (rates : List UInt32)

/-- A source and a sink with an edge for each of the rates. -/
def description : Description :=
  { Description.new "bulky" with
    types := .ofList [("block", size)]
    nodes := [⟨"p", none, [], rates.map (⟨"block", ·⟩)⟩, ⟨"c", none, rates.map (⟨"block", ·⟩), []⟩]
    edges := (List.range rates.length).map fun id ↦
      ⟨"p." ++ Decimal.text id, "c." ++ Decimal.text id, 0⟩ }

def sockets : List Socket := rates.zipIdx.map fun (rate, id) ↦ ⟨⟨⟨"block", size⟩, rate⟩, some id⟩

def graph : Graph where
  nodes := [⟨"p", 0, [], sockets size rates⟩, ⟨"c", 1, sockets size rates, []⟩]
  edges := rates.zipIdx.map fun (rate, id) ↦ ⟨.out 0 id, .into 1 id, 0, ⟨"block", size⟩, rate, rate⟩

def plan : Plan := ⟨.static, graph size rates, ⟨[1, 1]⟩, [0, 1], rates.map (·.toNat)⟩

end

/-- One edge for one element of the largest size. -/
def widest : Plan := plan 18446744073709551615 [1]

/-- Two edges that take half of what a word can tell each. -/
def halves : Plan := plan 9223372036854775808 [1, 1]

theorem built_widest : widest.graph.Built :=
  Description.built_of_toGraph (d := description 18446744073709551615 [1]) (by decide +kernel)

theorem built_halves : halves.graph.Built :=
  Description.built_of_toGraph (d := description 9223372036854775808 [1, 1]) (by decide +kernel)

/-- Two edges take half of what a word can tell each, and the third one takes as much as both. -/
def blocks : Plan := plan 4611686018427387904 [2, 2, 4]

/-- A description of them. -/
def blocksDescription : Description := description 4611686018427387904 [2, 2, 4]

end Bulky

namespace Graph

/-- The largest element of all is told exactly. Two lines that are exact each can have a sum that is
not. -/
theorem memory_bulky :
    (Bulky.widest.graph.compile .default = .ok Bulky.widest ∧
      (Report.ofPlan "bulky" Bulky.widest).TellsMemory Bulky.widest id ∧
      Machine.report "bulky" Bulky.widest = .ok (Report.ofPlan "bulky" Bulky.widest)) ∧
    Bulky.halves.graph.compile .default = .ok Bulky.halves ∧
      ¬ (Report.ofPlan "bulky" Bulky.halves).TellsMemory Bulky.halves id ∧
      Machine.report "bulky" Bulky.halves = Machine.stop .overflow := by
  have hwidest : Bulky.widest.graph.compile .default = .ok Bulky.widest := by decide +kernel
  have hhalves : Bulky.halves.graph.compile .default = .ok Bulky.halves := by decide +kernel
  have hfits : Bulky.widest.storage < Word.modulus := by decide +kernel
  have hwide : ¬ Bulky.halves.storage < Word.modulus := by decide +kernel
  obtain ⟨-, hexact, -, hreport⟩ := memory_exact_iff_fits Bulky.built_widest hwidest "bulky"
  obtain ⟨-, hinexact, -, hoverflow⟩ := memory_exact_iff_fits Bulky.built_halves hhalves "bulky"
  rw [if_pos hfits] at hreport
  rw [if_neg hwide] at hoverflow
  exact ⟨⟨hwidest, hexact.mpr hfits, hreport⟩, hhalves, mt hinexact.mp hwide, hoverflow⟩

/-- A description that is read from its tree and compiles, with more bytes in all than a word can tell. The
line of the third edge and the sum are told as nothing, and the sum is not that of the lines either. -/
theorem memory_cut_to_words :
    Description.ofTree? Bulky.blocksDescription.toTree = some Bulky.blocksDescription ∧
    Bulky.blocksDescription.compile = .ok Bulky.blocks ∧
    Bulky.blocks.storages = [9223372036854775808, 9223372036854775808, 18446744073709551616] ∧
    Bulky.blocks.storage = 36893488147419103232 ∧
    Bulky.blocks.memoryBytes = 0 ∧
    (Report.ofPlan "bulky" Bulky.blocks).memoryBytes = 0 ∧
    (Report.ofPlan "bulky" Bulky.blocks).edges.map (·.bytes.toNat) =
      [9223372036854775808, 9223372036854775808, 0] ∧
    ((Report.ofPlan "bulky" Bulky.blocks).edges.map (·.bytes.toNat)).sum = 18446744073709551616 ∧
    Machine.report "bulky" Bulky.blocks = Machine.stop .overflow := by
  refine ⟨?_, by decide +kernel, by decide +kernel, by decide +kernel, by decide +kernel,
    by decide +kernel, by decide +kernel, by decide +kernel, by decide +kernel⟩
  exact Description.decodes _ _ (Description.regular_toTree _).same_refl

end Graph

end Dataflow
