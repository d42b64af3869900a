import Dataflow.Description.Document
import Dataflow.Proofs.Document.Toml.Document

/-!
# Descriptions are read back

Every part of a description is read back from its tree, also where it was left out for being absent or
empty, and in whichever order the entries stand. So a description is read back from its document in every
format that finds its tree again, and the format that is there for TOML does.
-/

namespace Dataflow

/-! ## Types -/

namespace TypeTable

theorem nodup_names (t : TypeTable) : (t.entries.map Prod.fst).Nodup := by
  refine List.pairwise_map.mpr (t.sorted.imp ?_)
  intro a b hlt heq
  rw [heq] at hlt
  exact String.lt_irrefl _ hlt

theorem regular_toTree (t : TypeTable) : t.toTree.Regular 1 := by
  refine .table (by rw [List.map_map]; exact t.nodup_names) fun entry hentry ↦ ?_
  obtain ⟨type, -, rfl⟩ := List.mem_map.mp hentry
  exact .integer _

theorem perm_insertEntry {name : String} {entries : List (String × UInt64)} (size : UInt64)
    (h : name ∉ entries.map Prod.fst) :
    (insertEntry name size entries).Perm ((name, size) :: entries) := by
  induction entries with
  | nil => exact .refl _
  | cons entry entries ih =>
    obtain ⟨hne, hrest⟩ := not_or.mp (mt List.mem_cons.mpr h)
    rw [insertEntry]
    split_ifs with hlt
    · exact .refl _
    · exact ((ih hrest).cons entry).trans (.swap _ _ _)

theorem perm_foldl_insert {later : List (String × UInt64)} {t : TypeTable}
    (h : ((t.entries ++ later).map Prod.fst).Nodup) :
    (later.foldl (fun t (name, size) ↦ t.insert name size) t).entries.Perm (t.entries ++ later) := by
  induction later generalizing t with
  | nil => simp
  | cons entry later ih =>
    have hnew : entry.1 ∉ t.entries.map Prod.fst := by
      rw [List.map_append, List.map_cons, List.nodup_middle, List.nodup_cons] at h
      exact fun hmem ↦ h.1 (List.mem_append_left _ hmem)
    have hinsert : ((t.insert entry.1 entry.2).entries ++ later).Perm (t.entries ++ entry :: later) :=
      ((perm_insertEntry entry.2 hnew).append_right later).trans List.perm_middle.symm
    exact (ih ((hinsert.map Prod.fst).nodup_iff.mpr h)).trans hinsert

/-- A table is made of its own entries in any order. -/
theorem ofList_of_perm {l : List (String × UInt64)} {t : TypeTable} (h : l.Perm t.entries) :
    ofList l = t := by
  have hperm : (ofList l).entries.Perm t.entries := by
    refine (perm_foldl_insert (t := empty) ?_).trans h
    exact (h.map Prod.fst).nodup_iff.mpr t.nodup_names
  refine TypeTable.ext (hperm.eq_of_pairwise ?_ (ofList l).sorted t.sorted)
  exact fun a b _ _ hab hba ↦ absurd hba (String.lt_asymm hab)

theorem decodes : Tree.Decodes ofTree? toTree := by
  intro types t h
  cases h with
  | table h =>
    obtain ⟨l, hl, hperm⟩ := Tree.decodes_u64.exists_perm h
    rw [ofTree?, hl, Option.map_some, ofList_of_perm hperm]

end TypeTable

/-! ## Parts -/

theorem regular_list {α : Type} {encode : α → Tree} {depth : Nat}
    (h : ∀ a, (encode a).Regular depth) (l : List α) :
    (Tree.list (l.map encode)).Regular (depth + 1) := by
  refine .list fun t ht ↦ ?_
  obtain ⟨a, -, rfl⟩ := List.mem_map.mp ht
  exact h a

theorem Mode.decodes : Tree.Decodes ofTree? fun m ↦ .string m.text := by
  intro m t h
  rw [Tree.same_string_iff.mp h, ofTree?, ofText?_text]

theorem PortDecl.regular_toTree (p : PortDecl) : p.toTree.Regular 1 := by
  refine .table (by simp) fun entry hentry ↦ ?_
  simp only [List.mem_cons, List.not_mem_nil, or_false] at hentry
  rcases hentry with rfl | rfl
  · exact .string _
  · exact .integer _

theorem PortDecl.decodes : Tree.Decodes ofTree? toTree := by
  intro p t h
  cases h with
  | table h =>
    have hkeys := (Tree.regular_table_iff.mp p.regular_toTree).1
    have htype := Tree.decodes_text.bind_lookup "type" h hkeys rfl
    have hrate := Tree.decodes_u32.bind_lookup "rate" h hkeys rfl
    rw [ofTree?, Tree.record?_bind, Tree.field_bind htype, Tree.field_bind hrate]
    rfl

theorem EdgeDecl.regular_toTree (e : EdgeDecl) : e.toTree.Regular 1 := by
  refine .table (by simp) fun entry hentry ↦ ?_
  simp only [List.mem_cons, List.not_mem_nil, or_false] at hentry
  rcases hentry with rfl | rfl | rfl
  · exact .string _
  · exact .string _
  · exact .integer _

theorem EdgeDecl.decodes : Tree.Decodes ofTree? toTree := by
  intro e t h
  cases h with
  | table h =>
    have hkeys := (Tree.regular_table_iff.mp e.regular_toTree).1
    have hsource := Tree.decodes_text.bind_lookup "from" h hkeys rfl
    have htarget := Tree.decodes_text.bind_lookup "to" h hkeys rfl
    have hdelay := Tree.decodes_u32.optional?_eq "delay" 0 h hkeys (.inl rfl)
    rw [ofTree?, Tree.record?_bind, Tree.field_bind hsource, Tree.field_bind htarget,
      Tree.optional_bind hdelay]
    rfl

theorem eq_of_mem_unlessEmpty {key : String} {items : List Tree} {entry : String × Tree}
    (h : entry ∈ unlessEmpty key items) : entry = (key, .list items) := by
  unfold unlessEmpty at h
  split_ifs at h
  · cases h
  · exact List.mem_singleton.mp h

namespace NodeDecl

/-- The entries of a node, as they are before they become a tree. -/
def entries (n : NodeDecl) : List (String × Tree) :=
  ("name", .string n.name)
    :: (n.code.map fun c ↦ ("code", Tree.natural c.toNat)).toList
    ++ unlessEmpty "inputs" (n.inputs.map PortDecl.toTree)
    ++ unlessEmpty "outputs" (n.outputs.map PortDecl.toTree)

theorem keys_nodup (n : NodeDecl) : (n.entries.map Prod.fst).Nodup := by
  unfold entries unlessEmpty
  cases n.code <;> cases n.inputs <;> cases n.outputs <;> simp

theorem regular_toTree (n : NodeDecl) : n.toTree.Regular 3 := by
  refine .table n.keys_nodup fun entry hentry ↦ ?_
  have hports (ports : List PortDecl) : (Tree.list (ports.map PortDecl.toTree)).Regular 2 :=
    regular_list PortDecl.regular_toTree ports
  simp only [List.cons_append, List.mem_cons, List.mem_append, Option.mem_toList,
    Option.map_eq_some_iff] at hentry
  rcases hentry with rfl | (⟨code, -, rfl⟩ | hinputs) | houtputs
  · exact .string _
  · exact .integer _
  · exact eq_of_mem_unlessEmpty hinputs ▸ hports n.inputs
  · exact eq_of_mem_unlessEmpty houtputs ▸ hports n.outputs

theorem lookup_code (n : NodeDecl) :
    n.entries.lookup "code" = n.code.map fun c ↦ Tree.natural c.toNat := by
  unfold entries unlessEmpty
  cases n.code <;> cases n.inputs <;> cases n.outputs <;> rfl

theorem lookup_inputs (n : NodeDecl) :
    n.entries.lookup "inputs" = some (.list (n.inputs.map PortDecl.toTree)) ∨
      n.entries.lookup "inputs" = none ∧ n.inputs = [] := by
  unfold entries unlessEmpty
  cases n.inputs with
  | nil => cases n.code <;> cases n.outputs <;> exact .inr ⟨rfl, rfl⟩
  | cons p inputs => cases n.code <;> cases n.outputs <;> exact .inl rfl

theorem lookup_outputs (n : NodeDecl) :
    n.entries.lookup "outputs" = some (.list (n.outputs.map PortDecl.toTree)) ∨
      n.entries.lookup "outputs" = none ∧ n.outputs = [] := by
  unfold entries unlessEmpty
  cases n.outputs with
  | nil => cases n.code <;> cases n.inputs <;> exact .inr ⟨rfl, rfl⟩
  | cons p outputs => cases n.code <;> cases n.inputs <;> exact .inl rfl

theorem decodes : Tree.Decodes ofTree? toTree := by
  intro n t h
  cases h with
  | table h =>
    have hkeys := n.keys_nodup
    have hname := Tree.decodes_text.bind_lookup "name" h hkeys rfl
    have hcode := Tree.decodes_u32.optional?_map_some "code" h hkeys n.lookup_code
    have hinputs := PortDecl.decodes.listOf.optional?_eq "inputs" [] h hkeys n.lookup_inputs
    have houtputs := PortDecl.decodes.listOf.optional?_eq "outputs" [] h hkeys n.lookup_outputs
    rw [ofTree?, Tree.record?_bind, Tree.field_bind hname, Tree.optional_bind hcode,
      Tree.optional_bind hinputs, Tree.optional_bind houtputs]
    rfl

end NodeDecl

/-! ## Descriptions -/

namespace Description

theorem keys_nodup (d : Description) : (d.entries.map Prod.fst).Nodup := by
  unfold entries
  cases d.description <;> cases d.capacityLimit <;> simp

theorem lookup_description (d : Description) :
    d.entries.lookup "description" = d.description.map Tree.string := by
  unfold entries
  cases d.description <;> cases d.capacityLimit <;> rfl

theorem lookup_capacityLimit (d : Description) :
    d.entries.lookup "capacity_limit" = d.capacityLimit.map fun l ↦ Tree.natural l.toNat := by
  unfold entries
  cases d.description <;> cases d.capacityLimit <;> rfl

theorem decodes : Tree.Decodes ofTree? toTree := by
  intro d t h
  cases h with
  | @table _ entries' h =>
    have hkeys := d.keys_nodup
    have hlookup {key : String} {t : Tree} (hmem : (key, t) ∈ d.entries) :
        d.entries.lookup key = some t := Tree.lookup_eq_some_of_mem hkeys hmem
    have hname := Tree.decodes_text.bind_lookup "name" h hkeys rfl
    have hdescription :=
      Tree.decodes_text.optional?_map_some "description" h hkeys d.lookup_description
    have hmode : Tree.optional? Mode.ofTree? .static (entries'.lookup "mode") = some d.mode :=
      Mode.decodes.optional?_eq "mode" _ h hkeys (.inl (hlookup (by simp [entries])))
    have hmargin : Tree.optional? Tree.u32? 0 (entries'.lookup "async_margin_percent") =
        some d.margin :=
      Tree.decodes_u32.optional?_eq _ _ h hkeys (.inl (hlookup (by simp [entries])))
    have hlimit :=
      Tree.decodes_u64.optional?_map_some "capacity_limit" h hkeys d.lookup_capacityLimit
    have hperiod : Tree.optional? Tree.u64? defaultMaxPeriod
        (entries'.lookup "max_period_activations") = some d.maxPeriod :=
      Tree.decodes_u64.optional?_eq _ _ h hkeys (.inl (hlookup (by simp [entries])))
    have htypes : Tree.optional? TypeTable.ofTree? .empty (entries'.lookup "types") =
        some d.types :=
      TypeTable.decodes.optional?_eq _ _ h hkeys (.inl (hlookup (by simp [entries])))
    have hnodes : Tree.optional? (Tree.listOf? NodeDecl.ofTree?) [] (entries'.lookup "nodes") =
        some d.nodes :=
      NodeDecl.decodes.listOf.optional?_eq _ _ h hkeys (.inl (hlookup (by simp [entries])))
    have hedges : Tree.optional? (Tree.listOf? EdgeDecl.ofTree?) [] (entries'.lookup "edges") =
        some d.edges :=
      EdgeDecl.decodes.listOf.optional?_eq _ _ h hkeys (.inl (hlookup (by simp [entries])))
    rw [ofTree?]
    dsimp only
    rw [Tree.field_bind hname, Tree.optional_bind hdescription, Tree.optional_bind hmode,
      Tree.optional_bind hmargin, Tree.optional_bind hlimit, Tree.optional_bind hperiod,
      Tree.optional_bind htypes, Tree.optional_bind hnodes, Tree.optional_bind hedges]
    rfl

theorem regular_toTree (d : Description) : d.toTree.Regular 5 := by
  refine .table d.keys_nodup fun entry hentry ↦ ?_
  simp only [entries, List.cons_append, List.append_assoc, List.mem_cons, List.mem_append,
    Option.mem_toList, Option.map_eq_some_iff, List.not_mem_nil, or_false, List.nil_append] at hentry
  rcases hentry with rfl | ⟨text, -, rfl⟩ | rfl | rfl | ⟨limit, -, rfl⟩ | rfl | rfl | rfl | rfl
  · exact .string _
  · exact .string _
  · exact .string _
  · exact .integer _
  · exact .integer _
  · exact .integer _
  · exact d.types.regular_toTree.mono (by decide)
  · exact regular_list NodeDecl.regular_toTree d.nodes
  · exact (regular_list EdgeDecl.regular_toTree d.edges).mono (by decide)

theorem finds_toTree (d : Description) : Toml.format.Finds d.toTree :=
  Toml.finds_of_regular (d.regular_toTree.mono (by decide))

variable {d : Description} {toml : DocumentFormat} {text : String}

theorem toToml_eq_ok_iff : d.toToml toml = .ok text ↔ toml.write? d.toTree = some text := by
  unfold toToml
  cases toml.write? d.toTree <;> simp

/-- A description that can be written is read back. -/
theorem ofToml_of_toToml (hfinds : toml.Finds d.toTree) (h : d.toToml toml = .ok text) :
    ofToml text toml = .ok d := by
  rw [ofToml, decodes.bind_of_isFoundIn (hfinds text (toToml_eq_ok_iff.mp h))]

end Description

end Dataflow
