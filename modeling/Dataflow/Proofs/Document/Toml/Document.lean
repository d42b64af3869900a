import Dataflow.Proofs.Document.Toml.Lines

/-!
# Documents are read back

The lines of a document build its tables one after another. A table within another is built by its own
lines from nothing, wherever it stands, so the induction is on tables in tables. Plain entries come
before the tables, so the tree that is read back is the one that was written but for the order of
entries.
-/

namespace Dataflow.Toml

/-! ## What a line does -/

/-- The table that a line changes, for a line behind the header of a table. -/
def Line.target (current : List String) : Line → List String
  | .header k => k.path
  | .next k => k.path
  | .pair _ _ => current

/-- What a line does to the entries of this table. -/
def Line.change : Line → Entries → Option Entries
  | .header k => openTable [] k.name
  | .next k => openNext [] k.name
  | .pair k v => define k.path k.name v

/-- The table that a line leaves the reader in. -/
def Line.leaves (current : List String) : Line → List String
  | .header k => k.path ++ [k.name]
  | .next k => k.path ++ [k.name]
  | .pair _ _ => current

theorem Draft.add_eq (d : Draft) (l : Line) :
    d.add l = (alter l.change (l.target d.current) d.entries).map (⟨·, l.leaves d.current⟩) := by
  cases l <;> rfl

/-- A line that does not ask for the table that the reader is in. -/
def Line.Opens : Line → Prop
  | .pair _ _ => False
  | _ => True

variable {key : String} {plug : Entries → Entries} {es around : Entries} {current : List String}

theorem add_under (h : Holds key plug) (l : Line) :
    Draft.add ⟨plug es, key :: current⟩ (l.under [key]) =
      (Draft.add ⟨es, current⟩ l).map fun d ↦ ⟨plug d.entries, key :: d.current⟩ := by
  rw [Draft.add_eq, Draft.add_eq]
  have htarget : (l.under [key]).target (key :: current) = key :: l.target current := by
    cases l <;> rfl
  have hchange : (l.under [key]).change = l.change := by cases l <;> rfl
  have hleaves : (l.under [key]).leaves (key :: current) = key :: l.leaves current := by
    cases l <;> rfl
  simp only [htarget, hchange, hleaves, h l.change (l.target current) es, Option.map_map]
  rfl

/-- The lines of a table do in another what they do by themselves. -/
theorem foldlM_under (h : Holds key plug) (ls : List Line) (d : Draft) :
    (ls.map (.under [key])).foldlM Draft.add ⟨plug d.entries, key :: d.current⟩ =
      (ls.foldlM Draft.add d).map fun d ↦ ⟨plug d.entries, key :: d.current⟩ := by
  induction ls generalizing d with
  | nil => rfl
  | cons l ls ih =>
    rw [List.map_cons, List.foldlM_cons, List.foldlM_cons, add_under h l]
    cases Draft.add d l with
    | none => rfl
    | some d => exact ih d

/-- A header in a table that is not there yet makes the table on the way. -/
theorem add_under_of_opens (h : around.lookup key = none) {l : Line} (hl : l.Opens) :
    Draft.add ⟨around, current⟩ (l.under [key]) =
      (Draft.add ⟨[], []⟩ l).map fun d ↦
        ⟨put key (.table .passing d.entries) around, key :: d.current⟩ := by
  have htarget : (l.under [key]).target current = key :: l.target [] := by
    cases l with
    | pair => cases hl
    | _ => rfl
  have hleaves : (l.under [key]).leaves current = key :: l.leaves [] := by
    cases l with
    | pair => cases hl
    | _ => rfl
  have hchange : (l.under [key]).change = l.change := by cases l <;> rfl
  rw [Draft.add_eq, Draft.add_eq]
  simp only [htarget, hchange, hleaves, alter_of_lookup_eq_none h, Option.map_map]
  rfl

/-! ## Rows of lines -/

/-- The lines build one set of entries from another, whatever table the reader is in. -/
def Builds (ls : List Line) (es es' : Entries) : Prop :=
  ∀ current, ∃ current', ls.foldlM Draft.add ⟨es, current⟩ = some ⟨es', current'⟩

theorem Builds.append {ls ls' : List Line} {es es' es'' : Entries} (h : Builds ls es es')
    (h' : Builds ls' es' es'') : Builds (ls ++ ls') es es'' := by
  intro current
  obtain ⟨current', h⟩ := h current
  obtain ⟨current'', h'⟩ := h' current'
  exact ⟨current'', by rw [List.foldlM_append, h]; exact h'⟩

/-- The lines that a table has to itself build it from nothing, up to the order of its entries. -/
def BuildsTable (entries : List (String × Tree)) : Prop :=
  ∃ es current, (pairLines entries ++ blockLines entries).foldlM Draft.add ⟨[], []⟩ =
    some ⟨es, current⟩ ∧ Tree.SameEntries (entriesToTrees es) entries

theorem foldlM_pairLines (done : List (String × Tree)) {entries : List (String × Tree)}
    (hkeys : ((done ++ entries).map Prod.fst).Nodup) :
    (entries.map fun e ↦ Line.pair ⟨[], e.1⟩ e.2).foldlM Draft.add ⟨values done, []⟩ =
      some ⟨values (done ++ entries), []⟩ := by
  induction entries generalizing done with
  | nil => simp
  | cons e entries ih =>
    have hadd : Draft.add ⟨values done, []⟩ (.pair ⟨[], e.1⟩ e.2) =
        some ⟨values (done ++ [e]), []⟩ := by
      rw [Draft.add_eq]
      exact congrArg (Option.map _) (define_values hkeys)
    rw [List.map_cons, List.foldlM_cons, hadd]
    have hrest := ih (done ++ [e]) (by simpa using hkeys)
    simpa using hrest

/-! ## Tables under headers -/

theorem sectionLines_eq_nil (key : String) {t : Tree} (h : isSection t = false) :
    sectionLines key t = [] := by
  match t with
  | .string _ | .integer _ | .literal _ => rfl
  | .table _ => cases h
  | .list [] => rfl
  | .list (t :: items) =>
    have hall : ¬ (t :: items).all Tree.isTable := by simpa [isSection] using h
    rw [sectionLines, if_neg hall]

theorem Line.Opens.under {l : Line} (h : l.Opens) (path : List String) : (l.under path).Opens := by
  cases l with
  | pair => cases h
  | _ => trivial

/-- A table without a header of its own begins with that of a table within. -/
theorem exists_opens_of_tables {entries : List (String × Tree)} (hheader : ¬ needsHeader entries)
    (h : ∀ e ∈ entries, isSection e.2 → ∃ l ls, sectionLines e.1 e.2 = l :: ls ∧ l.Opens) :
    ∃ l ls, pairLines entries ++ blockLines entries = l :: ls ∧ l.Opens := by
  have hplain := plain_eq_nil hheader
  cases entries with
  | nil => cases hheader rfl
  | cons e entries =>
    have hsection : isSection e.2 := by
      simpa using List.filter_eq_nil_iff.mp hplain e List.mem_cons_self
    obtain ⟨l, ls, hlines, hopens⟩ := h e List.mem_cons_self hsection
    rw [pairLines, hplain, blockLines, hlines]
    exact ⟨l, _, rfl, hopens⟩

/-- The first line of a table is a header. -/
theorem exists_opens {depth : Nat} (key : String) {t : Tree} (ht : t.Regular depth)
    (h : isSection t) : ∃ l ls, sectionLines key t = l :: ls ∧ l.Opens := by
  induction ht generalizing key with
  | string | integer => cases h
  | @list _ items =>
    match items with
    | [] => cases h
    | .table entries :: items =>
      have hall : (Tree.table entries :: items).all Tree.isTable := h
      rw [sectionLines, if_pos hall, elementLines]
      exact ⟨_, _, rfl, trivial⟩
  | @table _ entries _ _ ih =>
    rw [sectionLines]
    split_ifs with hheader
    · exact ⟨_, _, rfl, trivial⟩
    · obtain ⟨l, ls, hlines, hopens⟩ := exists_opens_of_tables hheader fun e he ↦ ih e he e.1
      rw [hlines]
      exact ⟨_, _, rfl, hopens.under [key]⟩

/-- The table or the tables with one key come behind the entries that are there. -/
def BuildsSection (key : String) (t : Tree) : Prop :=
  ∀ around, around.lookup key = none → ∃ item, item.toTree.Same t ∧
    Builds (sectionLines key t) around (around ++ [(key, item)])

theorem buildsSection_table {depth : Nat} {entries : List (String × Tree)} (key : String)
    (ht : (Tree.table entries).Regular (depth + 1)) (h : BuildsTable entries) :
    BuildsSection key (.table entries) := by
  intro around hkey
  obtain ⟨es, current, hlines, hsame⟩ := h
  by_cases hheader : needsHeader entries
  · refine ⟨.table .header es, ?_, fun before ↦ ⟨key :: current, ?_⟩⟩
    · rw [Item.toTree]
      exact .table hsame
    · have hopen : Draft.add ⟨around, before⟩ (.header ⟨[], key⟩) =
          some ⟨put key (.table .header []) around, [key]⟩ := by
        rw [Draft.add_eq]
        simp [alter, within, Line.change, Line.target, Line.leaves, openTable, hkey]
      have hrest := foldlM_under (holds_table key .header around)
        (pairLines entries ++ blockLines entries) ⟨[], []⟩
      rw [sectionLines, if_pos hheader, List.singleton_append, List.foldlM_cons, hopen]
      refine hrest.trans ?_
      rw [hlines, Option.map_some, put_of_lookup_eq_none hkey]
  · obtain ⟨l, ls, hcons, hopens⟩ := exists_opens_of_tables hheader fun e he ↦
      exists_opens e.1 ((Tree.regular_table_iff.mp ht).2 e he)
    refine ⟨.table .passing es, ?_, fun before ↦ ⟨key :: current, ?_⟩⟩
    · rw [Item.toTree]
      exact .table hsame
    · rw [hcons, List.foldlM_cons] at hlines
      rw [sectionLines, if_neg hheader, List.nil_append, hcons, List.map_cons, List.foldlM_cons,
        add_under_of_opens hkey hopens]
      cases hfirst : Draft.add ⟨[], []⟩ l with
      | none => simp [hfirst] at hlines
      | some d =>
        rw [hfirst] at hlines
        have hrest := foldlM_under (holds_table key .passing around) ls d
        refine hrest.trans ?_
        rw [Option.bind_eq_bind, Option.bind_some] at hlines
        rw [hlines, Option.map_some, put_of_lookup_eq_none hkey]

/-! ## Several tables with one header -/

/-- The entries with the tables, in the order of the document, under one key. -/
def withTables (key : String) (tables : List Entries) (around : Entries) : Entries :=
  match tables.reverse with
  | [] => around
  | last :: earlier => put key (.tables last earlier) around

theorem withTables_concat (key : String) (tables : List Entries) (es around : Entries) :
    withTables key (tables ++ [es]) around = put key (.tables es tables.reverse) around := by
  simp [withTables]

theorem add_next (hkey : around.lookup key = none) (tables : List Entries) (before : List String) :
    Draft.add ⟨withTables key tables around, before⟩ (.next ⟨[], key⟩) =
      some ⟨withTables key (tables ++ [[]]) around, [key]⟩ := by
  rw [Draft.add_eq, withTables_concat, withTables]
  cases tables.reverse with
  | nil => simp [alter, within, Line.change, Line.target, Line.leaves, openNext, hkey]
  | cons last earlier =>
    simp [alter, within, Line.change, Line.target, Line.leaves, openNext, lookup_put, put_put]

theorem builds_elementLines {items : List Tree} (hkey : around.lookup key = none)
    (h : ∀ t ∈ items, ∃ entries, t = .table entries ∧ BuildsTable entries) (tables : List Entries) :
    ∃ tables' : List Entries,
      List.Forall₂ Tree.Same (tables'.map fun es ↦ .table (entriesToTrees es)) items ∧
        Builds (elementLines key items) (withTables key tables around)
          (withTables key (tables ++ tables') around) := by
  induction items generalizing tables with
  | nil => exact ⟨[], .nil, fun before ↦ ⟨before, by rw [List.append_nil]; rfl⟩⟩
  | cons t items ih =>
    obtain ⟨entries, rfl, es, current, hlines, hsame⟩ := h t List.mem_cons_self
    obtain ⟨tables', hrest, hbuilds⟩ :=
      ih (fun t ht ↦ h t (List.mem_cons_of_mem _ ht)) (tables ++ [es])
    refine ⟨es :: tables', .cons (.table hsame) hrest, ?_⟩
    rw [elementLines, List.append_cons tables es tables']
    refine Builds.append (fun before ↦ ⟨key :: current, ?_⟩) hbuilds
    have htable := foldlM_under (holds_tables key tables.reverse around)
      (pairLines entries ++ blockLines entries) ⟨[], []⟩
    rw [List.foldlM_cons, add_next hkey, withTables_concat]
    refine htable.trans ?_
    rw [hlines, Option.map_some, withTables_concat]

theorem buildsSection_list {items : List Tree} (key : String) (hsection : isSection (.list items))
    (h : ∀ t ∈ items, ∃ entries, t = .table entries ∧ BuildsTable entries) :
    BuildsSection key (.list items) := by
  intro around hkey
  have hall : items.all Tree.isTable := by
    cases items with
    | nil => rfl
    | cons t items => exact hsection
  obtain ⟨tables, hsame, hbuilds⟩ := builds_elementLines hkey h []
  rw [List.nil_append] at hbuilds
  rcases List.eq_nil_or_concat tables with rfl | ⟨earlier, last, rfl⟩
  · cases hsame
    cases hsection
  · rw [List.concat_eq_append] at hsame hbuilds
    refine ⟨.tables last earlier.reverse, ?_, ?_⟩
    · rw [Item.toTree, tablesToTrees_eq]
      exact .list (by simpa using hsame)
    · rw [withTables_concat, put_of_lookup_eq_none hkey] at hbuilds
      rw [sectionLines, if_pos hall]
      exact hbuilds

/-! ## Whole tables -/

theorem builds_blockLines {entries : List (String × Tree)} (around : Entries)
    (hkeys : (entries.map Prod.fst).Nodup)
    (h : ∀ e ∈ entries, isSection e.2 → BuildsSection e.1 e.2)
    (haround : ∀ e ∈ entries, isSection e.2 → around.lookup e.1 = none) :
    ∃ es, Tree.SameEntries (entriesToTrees es) (entries.filter fun e ↦ isSection e.2) ∧
      Builds (blockLines entries) around (around ++ es) := by
  induction entries generalizing around with
  | nil => exact ⟨[], .nil, fun before ↦ ⟨before, by rw [List.append_nil]; rfl⟩⟩
  | cons e entries ih =>
    obtain ⟨hnew, hkeys⟩ := List.nodup_cons.mp hkeys
    have ih := fun around ↦ ih around hkeys fun e' he' ↦ h e' (List.mem_cons_of_mem e he')
    have haround' := fun e' he' ↦ haround e' (List.mem_cons_of_mem e he')
    by_cases hsection : isSection e.2
    · obtain ⟨item, hsame, hbuilds⟩ :=
        h e List.mem_cons_self hsection around (haround e List.mem_cons_self hsection)
      obtain ⟨es, hrest, hbuilds'⟩ := ih (around ++ [(e.1, item)]) fun e' he' hsection' ↦ by
        have hne : e'.1 ≠ e.1 := fun heq ↦ hnew (List.mem_map.mpr ⟨e', he', heq⟩)
        rw [List.lookup_append, haround' e' he' hsection', List.lookup_cons,
          beq_eq_false_iff_ne.mpr hne]
        rfl
      refine ⟨(e.1, item) :: es, ?_, ?_⟩
      · rw [List.filter_cons_of_pos (p := fun e : String × Tree ↦ isSection e.2) hsection,
          entriesToTrees]
        exact .cons [] hsame hrest
      · rw [blockLines, List.append_cons]
        exact hbuilds.append hbuilds'
    · obtain ⟨es, hrest, hbuilds⟩ := ih around haround'
      refine ⟨es, ?_, ?_⟩
      · rwa [List.filter_cons_of_neg (p := fun e : String × Tree ↦ isSection e.2) hsection]
      · rw [blockLines, sectionLines_eq_nil e.1 (by simpa using hsection), List.nil_append]
        exact hbuilds

theorem buildsTable_of_buildsSection {depth : Nat} {entries : List (String × Tree)}
    (ht : (Tree.table entries).Regular (depth + 1))
    (h : ∀ e ∈ entries, isSection e.2 → BuildsSection e.1 e.2) : BuildsTable entries := by
  obtain ⟨hkeys, hentries⟩ := Tree.regular_table_iff.mp ht
  have hplain : ((plain entries).map Prod.fst).Nodup :=
    hkeys.sublist (List.filter_sublist.map Prod.fst)
  obtain ⟨es, hsame, hbuilds⟩ := builds_blockLines (values (plain entries)) hkeys h
    fun e he hsection ↦ by
      refine lookup_values fun hmem ↦ ?_
      obtain ⟨e', he', heq⟩ := List.mem_map.mp hmem
      obtain ⟨he', hplain⟩ := List.mem_filter.mp he'
      have heq : e' = e := List.inj_on_of_nodup_map hkeys he' he heq
      simp [heq, hsection] at hplain
  obtain ⟨current, hblocks⟩ := hbuilds []
  refine ⟨values (plain entries) ++ es, current, ?_, ?_⟩
  · have hpairs : (pairLines entries).foldlM Draft.add ⟨[], []⟩ = some ⟨values (plain entries), []⟩ :=
      foldlM_pairLines [] hplain
    rw [List.foldlM_append, hpairs]
    exact hblocks
  · rw [entriesToTrees_append, entriesToTrees_values]
    exact .filter_append (fun e he ↦ (hentries e he).same_refl) hsame

/-- The induction is on how many containers are in each other. -/
theorem buildsTable_of_regular {depth : Nat} {entries : List (String × Tree)}
    (ht : (Tree.table entries).Regular depth) : BuildsTable entries := by
  induction depth generalizing entries with
  | zero => cases ht
  | succ depth ih =>
    refine buildsTable_of_buildsSection ht fun e he hsection ↦ ?_
    have hentry := (Tree.regular_table_iff.mp ht).2 e he
    obtain ⟨key, t⟩ := e
    cases hentry with
    | string | integer => cases hsection
    | @table depth entries hkeys hentries =>
      have ht := Tree.Regular.table hkeys hentries
      exact buildsSection_table key ht (ih ht)
    | @list depth items hitems =>
      refine buildsSection_list key hsection fun t hmem ↦ ?_
      have htable : t.isTable := by
        cases items with
        | nil => cases hmem
        | cons t items => exact List.all_eq_true.mp hsection _ hmem
      cases t with
      | table entries => exact ⟨entries, rfl, ih ((hitems _ hmem).mono (Nat.le_succ depth))⟩
      | _ => cases htable

/-! ## Documents -/

/-- No line begins with a mark of byte order. -/
theorem dropMark_of_reads {cs : List Char} {ls : List Line} (h : Reads cs ls) :
    dropMark cs = cs := by
  unfold dropMark
  split
  · cases h _ (Nat.lt_succ_self _)
  · rfl

/-- Reading a document gives back the tree that was written, up to the order of entries. -/
theorem exists_same_of_write? {entries : List (String × Tree)} {text : String}
    (ht : (Tree.table entries).Regular depthLimit) (h : write? entries = some text) :
    ∃ t, read? text = some t ∧ t.Same (.table entries) := by
  have hreads := reads_of_write? ht h
  obtain ⟨es, current, hlines, hsame⟩ := buildsTable_of_regular ht
  refine ⟨.table (entriesToTrees es), ?_, .table hsame⟩
  rw [read?, dropMark_of_reads hreads]
  simp only [hreads _ (Nat.lt_succ_self _), Option.bind_eq_bind, Option.bind_some, hlines]
  rfl

theorem finds_of_regular {t : Tree} (ht : t.Regular depthLimit) : format.Finds t := by
  intro text h
  cases t with
  | table entries => exact exists_same_of_write? ht h
  | _ => cases h

end Dataflow.Toml
