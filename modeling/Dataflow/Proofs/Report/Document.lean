import Dataflow.Proofs.Description.Document
import Dataflow.Report.Document

/-!
# Reports are read back

A report is read back from its tree, in whichever order the entries stand, and so it is from both of its
documents, in TOML and in JSON, by any reader that finds the tree again.
-/

namespace Dataflow

/-! ## Parts -/

theorem NodeReport.regular_toTree (n : NodeReport) : n.toTree.Regular 1 := by
  refine .table (by simp) fun entry hentry ↦ ?_
  simp only [List.mem_cons, List.not_mem_nil, or_false] at hentry
  rcases hentry with rfl | rfl | rfl
  · exact .string _
  · exact .integer _
  · exact .integer _

theorem NodeReport.decodes : Tree.Decodes ofTree? toTree := by
  intro n t h
  cases h with
  | table h =>
    have hkeys := (Tree.regular_table_iff.mp n.regular_toTree).1
    have hname := Tree.decodes_text.bind_lookup "name" h hkeys rfl
    have hcode := Tree.decodes_u32.bind_lookup "code" h hkeys rfl
    have hcount := Tree.decodes_u32.bind_lookup "repetitions" h hkeys rfl
    rw [ofTree?, Tree.record?_bind, Tree.field_bind hname, Tree.field_bind hcode,
      Tree.field_bind hcount]
    rfl

theorem EdgeReport.regular_toTree (e : EdgeReport) : e.toTree.Regular 1 := by
  refine .table (by simp) fun entry hentry ↦ ?_
  simp only [List.mem_cons, List.not_mem_nil, or_false] at hentry
  rcases hentry with rfl | rfl | rfl | rfl | rfl | rfl | rfl | rfl
  · exact .string _
  · exact .string _
  · exact .string _
  all_goals exact .integer _

theorem EdgeReport.decodes : Tree.Decodes ofTree? toTree := by
  intro e t h
  cases h with
  | table h =>
    have hkeys := (Tree.regular_table_iff.mp e.regular_toTree).1
    have hsource := Tree.decodes_text.bind_lookup "from" h hkeys rfl
    have htarget := Tree.decodes_text.bind_lookup "to" h hkeys rfl
    have htype := Tree.decodes_text.bind_lookup "type" h hkeys rfl
    have hproduction := Tree.decodes_u32.bind_lookup "production" h hkeys rfl
    have hconsumption := Tree.decodes_u32.bind_lookup "consumption" h hkeys rfl
    have hdelay := Tree.decodes_u32.bind_lookup "delay" h hkeys rfl
    have hcapacity := Tree.decodes_u64.bind_lookup "capacity" h hkeys rfl
    have hbytes := Tree.decodes_u64.bind_lookup "bytes" h hkeys rfl
    rw [ofTree?, Tree.record?_bind, Tree.field_bind hsource, Tree.field_bind htarget,
      Tree.field_bind htype, Tree.field_bind hproduction, Tree.field_bind hconsumption,
      Tree.field_bind hdelay, Tree.field_bind hcapacity, Tree.field_bind hbytes]
    rfl

/-! ## Reports -/

namespace Report

theorem keys_nodup (r : Report) : (r.entries.map Prod.fst).Nodup := by
  unfold entries
  cases r.firingOrder <;> simp

theorem regular_strings (texts : List String) : (Tree.strings texts).Regular 1 := by
  rw [Tree.strings]
  exact regular_list Tree.Regular.string texts

theorem regular_toTree (r : Report) : r.toTree.Regular 3 := by
  refine .table r.keys_nodup fun entry hentry ↦ ?_
  simp only [entries, List.cons_append, List.mem_cons, List.mem_append, Option.mem_toList,
    Option.map_eq_some_iff, List.not_mem_nil, or_false, List.nil_append] at hentry
  rcases hentry with rfl | rfl | rfl | rfl | rfl | ⟨names, -, rfl⟩ | rfl | rfl
  · exact .string _
  · exact .string _
  · exact .integer _
  · exact .integer _
  · exact (regular_strings r.order).mono (by decide)
  · exact (regular_strings names).mono (by decide)
  · exact regular_list NodeReport.regular_toTree r.nodes
  · exact regular_list EdgeReport.regular_toTree r.edges

theorem lookup_firingOrder (r : Report) :
    r.entries.lookup "firing_order" = r.firingOrder.map Tree.strings := by
  unfold entries
  cases r.firingOrder <;> rfl

theorem decodes : Tree.Decodes ofTree? toTree := by
  intro r t h
  cases h with
  | @table _ entries' h =>
    have hkeys := r.keys_nodup
    have hlookup {key : String} {t : Tree} (hmem : (key, t) ∈ r.entries) :
        r.entries.lookup key = some t := Tree.lookup_eq_some_of_mem hkeys hmem
    have hname := Tree.decodes_text.bind_lookup "name" h hkeys rfl
    have hmode := Mode.decodes.bind_lookup "mode" h hkeys rfl
    have hactivations := Tree.decodes_u64.bind_lookup "period_activations" h hkeys rfl
    have hmemory := Tree.decodes_u64.bind_lookup "memory_bytes" h hkeys rfl
    have horder := Tree.decodes_text.listOf.bind_lookup "order" h hkeys rfl
    have hfiringOrder :=
      Tree.decodes_text.listOf.optional?_map_some "firing_order" h hkeys r.lookup_firingOrder
    have hnodes := NodeReport.decodes.listOf.bind_lookup "nodes" h hkeys
      (hlookup (t := .list (r.nodes.map NodeReport.toTree)) (by simp [entries]))
    have hedges := EdgeReport.decodes.listOf.bind_lookup "edges" h hkeys
      (hlookup (t := .list (r.edges.map EdgeReport.toTree)) (by simp [entries]))
    rw [ofTree?]
    dsimp only
    rw [Tree.field_bind hname, Tree.field_bind hmode, Tree.field_bind hactivations,
      Tree.field_bind hmemory, Tree.field_bind horder, Tree.optional_bind hfiringOrder,
      Tree.field_bind hnodes, Tree.field_bind hedges]
    rfl

theorem finds_toTree (r : Report) : Toml.format.Finds r.toTree :=
  Toml.finds_of_regular (r.regular_toTree.mono (by decide))

variable {r : Report} {toml : DocumentFormat} {text : String}

theorem toToml_eq_ok_iff : r.toToml toml = .ok text ↔ toml.write? r.toTree = some text := by
  unfold toToml
  cases toml.write? r.toTree <;> simp

/-- A report that can be written in TOML is read back. -/
theorem bind_of_toToml (hfinds : toml.Finds r.toTree) (h : r.toToml toml = .ok text) :
    (toml.read? text).bind ofTree? = some r :=
  decodes.bind_of_isFoundIn (hfinds text (toToml_eq_ok_iff.mp h))

end Report

/-! ## All documents -/

/-- Documents lose nothing, as long as trees are found again in what is written for them, in the format
for TOML and by the writer and the reader of JSON, whichever they are. A description is read back from
its TOML whenever it has one, and so is a report, which is also read back from its JSON. -/
theorem documents_lose_nothing (toml : DocumentFormat) (json : Tree → String)
    (parse : String → Option Tree) :
    (∀ d : Description, toml.Finds d.toTree →
      ∀ text, d.toToml toml = .ok text → Description.ofToml text toml = .ok d) ∧
    ∀ r : Report,
      (toml.Finds r.toTree →
        ∀ text, r.toToml toml = .ok text → (toml.read? text).bind Report.ofTree? = some r) ∧
      (r.toTree.IsFoundIn parse (json r.toTree) →
        (parse (r.toJson json)).bind Report.ofTree? = some r) := by
  refine ⟨fun d hfinds text h ↦ Description.ofToml_of_toToml hfinds h, fun r ↦ ⟨?_, ?_⟩⟩
  · exact fun hfinds text h ↦ Report.bind_of_toToml hfinds h
  · exact fun hfound ↦ Report.decodes.bind_of_isFoundIn hfound

/-! ## One node -/

namespace Solo

def description : Description :=
  { Description.new "solo" with nodes := [⟨"a.\"b\"", none, [], []⟩] }

def report : Report :=
  ⟨"solo", .static, 1, 0, ["a.\"b\""], none, [⟨"a.\"b\"", 1, 1⟩], []⟩

def lines (texts : List String) : String := "\n".intercalate texts

def descriptionToml : String := lines
  ["name = \"solo\"", "mode = \"static\"", "async_margin_percent = 0",
    "max_period_activations = 65536", "edges = []", "", "[types]", "", "[[nodes]]",
    "name = 'a.\"b\"'", ""]

def reportToml : String := lines
  ["name = \"solo\"", "mode = \"static\"", "period_activations = 1", "memory_bytes = 0",
    "order = ['a.\"b\"']", "edges = []", "", "[[nodes]]", "name = 'a.\"b\"'", "code = 1",
    "repetitions = 1", ""]

def reportJson : String := lines
  ["\x7b", "  \"name\": \"solo\",", "  \"mode\": \"static\",", "  \"period_activations\": 1,",
    "  \"memory_bytes\": 0,", "  \"order\": [", "    \"a.\\\"b\\\"\"", "  ],", "  \"nodes\": [",
    "    \x7b", "      \"name\": \"a.\\\"b\\\"\",", "      \"code\": 1,",
    "      \"repetitions\": 1", "    \x7d", "  ],", "  \"edges\": []", "\x7d"]

/-- What a reader gives that keeps entries in the order of their keys. -/
def sorted : Tree :=
  .table
    [("edges", .list []), ("memory_bytes", .integer 0), ("mode", .string "static"),
      ("name", .string "solo"),
      ("nodes", .list [.table [("code", .integer 1), ("name", .string "a.\"b\""),
        ("repetitions", .integer 1)]]),
      ("order", .list [.string "a.\"b\""]), ("period_activations", .integer 1)]

def read (text : String) : Option Tree := if text = reportJson then some sorted else none

theorem same_sorted : sorted.Same report.toTree := by
  have hnode : (Tree.table [("code", .integer 1), ("name", .string "a.\"b\""),
      ("repetitions", .integer 1)]).Same (NodeReport.toTree ⟨"a.\"b\"", 1, 1⟩) :=
    .table (.cons [_] (.string _) (.cons [] (.integer _) (.cons [] (.integer _) .nil)))
  refine .table (.cons [_, _, _] (.string _) ?_)
  refine .cons [_, _] (.string _) ?_
  refine .cons [_, _, _, _] (.integer _) ?_
  refine .cons [_] (.integer _) ?_
  refine .cons [_, _] (.list (.cons (.string _) .nil)) ?_
  refine .cons [_] (.list (.cons hnode .nil)) ?_
  exact .cons [] (.list .nil) .nil

end Solo

theorem solo_loses_nothing :
    Solo.description.toToml = .ok Solo.descriptionToml ∧
      Description.ofToml Solo.descriptionToml = .ok Solo.description ∧
      Solo.report.toToml = .ok Solo.reportToml ∧
      (Toml.read? Solo.reportToml).bind Report.ofTree? = some Solo.report ∧
      Solo.report.toJson = Solo.reportJson ∧
      (Solo.read Solo.reportJson).bind Report.ofTree? = some Solo.report := by
  have hdescription : Solo.description.toToml = .ok Solo.descriptionToml := by decide +kernel
  have hreport : Solo.report.toToml = .ok Solo.reportToml := by decide +kernel
  have hjson : Solo.report.toJson = Solo.reportJson := by decide +kernel
  have hfound : Solo.report.toTree.IsFoundIn Solo.read Solo.report.toJson := by
    refine ⟨Solo.sorted, ?_, Solo.same_sorted⟩
    rw [hjson, Solo.read, if_pos rfl]
  obtain ⟨hdescriptions, hreports⟩ := documents_lose_nothing Toml.format Json.write Solo.read
  obtain ⟨htoml, hback⟩ := hreports Solo.report
  exact ⟨hdescription, hdescriptions _ Solo.description.finds_toTree _ hdescription, hreport,
    htoml Solo.report.finds_toTree _ hreport, hjson, hjson ▸ hback hfound⟩

end Dataflow
