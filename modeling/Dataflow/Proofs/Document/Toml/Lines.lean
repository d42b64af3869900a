import Dataflow.Proofs.Document.Toml.Values

/-!
# Lines are read back

A document is written table by table, and read line by line. The lines of a table are those of its
plain entries and of the tables in it, and a table within another has the same lines but for the path
in its headers.
-/

namespace Dataflow.Toml

/-! ## The lines of a table -/

/-- The line as it is in a table that stands at a path. -/
def Line.under (path : List String) : Line → Line
  | .header k => .header ⟨path ++ k.path, k.name⟩
  | .next k => .next ⟨path ++ k.path, k.name⟩
  | .pair k v => .pair k v

@[simp]
theorem Line.under_header (path : List String) (k : Key) :
    (header k).under path = .header ⟨path ++ k.path, k.name⟩ := rfl

@[simp]
theorem Line.under_next (path : List String) (k : Key) :
    (next k).under path = .next ⟨path ++ k.path, k.name⟩ := rfl

@[simp]
theorem Line.under_pair (path : List String) (k : Key) (v : Tree) :
    (pair k v).under path = .pair k v := rfl

@[simp]
theorem Line.under_under (path path' : List String) (l : Line) :
    (l.under path').under path = l.under (path ++ path') := by
  cases l <;> simp

/-- The entries that have no headers of their own. -/
def plain (entries : List (String × Tree)) : List (String × Tree) :=
  entries.filter fun e ↦ !isSection e.2

def pairLines (entries : List (String × Tree)) : List Line :=
  (plain entries).map fun e ↦ .pair ⟨[], e.1⟩ e.2

mutual

/-- The lines of the tables among the entries. -/
def blockLines : List (String × Tree) → List Line
  | [] => []
  | (key, t) :: rest => sectionLines key t ++ blockLines rest

/-- The lines of the table or the tables with one key. -/
def sectionLines (key : String) : Tree → List Line
  | .table entries =>
    (if needsHeader entries then [.header ⟨[], key⟩] else [])
      ++ (pairLines entries ++ blockLines entries).map (.under [key])
  | .list items => if items.all Tree.isTable then elementLines key items else []
  | _ => []

def elementLines (key : String) : List Tree → List Line
  | [] => []
  | .table entries :: rest =>
    .next ⟨[], key⟩ :: (pairLines entries ++ blockLines entries).map (.under [key])
      ++ elementLines key rest
  | _ :: rest => elementLines key rest

end

/-! ## One line -/

/-- The text is that of the lines, whatever bound the reader is given. -/
def Reads (cs : List Char) (ls : List Line) : Prop :=
  ∀ bound, cs.length < bound → lines bound cs = some ls

variable {cs : List Char} {ls : List Line}

theorem reads_nil : Reads [] [] := by
  intro bound hbound
  obtain ⟨bound, rfl⟩ := Nat.exists_eq_add_one_of_ne_zero (Nat.ne_zero_of_lt hbound)
  rfl

theorem reads_newline_iff : Reads ('\n' :: cs) ls ↔ Reads cs ls := by
  constructor
  · exact fun h bound hbound ↦ h (bound + 1) (Nat.succ_lt_succ hbound)
  · intro h bound hbound
    obtain ⟨bound, rfl⟩ := Nat.exists_eq_add_one_of_ne_zero (Nat.ne_zero_of_lt hbound)
    exact h bound (Nat.lt_of_succ_lt_succ hbound)

/-- A line that begins with a key is one of a key with its value. -/
theorem lines_of_key {bound : Nat} {c : Char} {tail : List Char}
    (hc : isBareKeyChar c ∨ c = '"' ∨ c = '\'') :
    lines (bound + 1) (c :: tail) = (do
      let (line, rest) ← pairLine (c :: tail)
      return line :: (← lines bound (← endLine rest))) := by
  have hother {d : Char} (hd : ¬ (isBareKeyChar d ∨ d = '"' ∨ d = '\'')) : c ≠ d := fun h ↦
    hd (h ▸ hc)
  have hskip : skipBlanks (c :: tail) = c :: tail := by
    have hblank : isBlank c = false := by
      simp [isBlank, hother (d := ' ') (by decide), hother (d := '\t') (by decide)]
    rw [skipBlanks, List.dropWhile_cons, hblank]
    rfl
  rw [lines, hskip]
  split
  · cases ‹c :: tail = []›
  · cases ‹c :: tail = '#' :: _›
    exact absurd rfl (hother (d := '#') (by decide))
  · cases ‹c :: tail = '\n' :: _›
    exact absurd rfl (hother (d := '\n') (by decide))
  · cases ‹c :: tail = '\r' :: '\n' :: _›
    exact absurd rfl (hother (d := '\r') (by decide))
  · cases ‹c :: tail = '[' :: _›
    exact absurd rfl (hother (d := '[') (by decide))
  · rfl

theorem Reads.pair {entry : String × Tree} (hread : ReadsValue (value (depthLimit - 1)) entry.2)
    (h : Reads cs ls) :
    Reads (pairText entry ++ '\n' :: cs) (.pair ⟨[], entry.1⟩ entry.2 :: ls) := by
  intro bound hbound
  obtain ⟨bound, rfl⟩ := Nat.exists_eq_add_one_of_ne_zero (Nat.ne_zero_of_lt hbound)
  have hpair : pairLine (pairText entry ++ '\n' :: cs) =
      some (.pair ⟨[], entry.1⟩ entry.2, '\n' :: cs) := by
    rw [pairLine, pairWith_pairText hread.1 (hread.2 _ (.of_head _ (by decide)))]
    rfl
  have hend : endLine ('\n' :: cs) = some cs := rfl
  have hrest : lines bound cs = some ls := h bound (by
    simp only [List.length_append, List.length_cons] at hbound
    omega)
  obtain ⟨c, tail, hcons, hc⟩ := exists_quoteKey_eq_cons entry.1
  have htext : ∃ tail, pairText entry ++ '\n' :: cs = c :: tail := by
    rw [pairText, hcons]
    exact ⟨_, rfl⟩
  obtain ⟨tail', htext⟩ := htext
  rw [htext] at hpair ⊢
  rw [lines_of_key hc, hpair]
  simp only [Option.bind_eq_bind, Option.bind_some, hend, hrest]
  rfl

/-- The path to a table, as it stands in headers. -/
def pathText (path : List String) : String := ".".intercalate (path.map quoteKey)

theorem toList_pathText_cons (k : String) (ks : List String) :
    (pathText (k :: ks)).toList = dotted k ks := by
  simp [pathText, String.toList_intercalate, intercalate_cons, List.flatMap_map, dotted]

theorem exists_pathText_eq_cons {path : List String} (h : path ≠ []) :
    ∃ c rest, (pathText path).toList = c :: rest ∧ c ≠ '[' := by
  obtain ⟨k, ks, rfl⟩ := List.exists_cons_of_ne_nil h
  obtain ⟨c, rest, hcons, hc⟩ := exists_quoteKey_eq_cons k
  refine ⟨c, _, by rw [toList_pathText_cons, dotted, hcons, List.cons_append], ?_⟩
  rintro rfl
  revert hc
  decide

theorem join_pathText (path : List String) (key : String) :
    join (pathText path) key = pathText (path ++ [key]) := by
  cases path with
  | nil => simp [join, pathText]
  | cons k ks =>
    have hne : (pathText (k :: ks)).isEmpty = false := by
      obtain ⟨c, rest, hcons, -⟩ := exists_pathText_eq_cons (List.cons_ne_nil k ks)
      rw [Bool.eq_false_iff, ne_eq, String.isEmpty_iff, ← String.toList_inj, hcons]
      simp
    rw [join, hne, if_neg (by simp), ← String.toList_inj, List.cons_append, toList_pathText_cons]
    simp [toList_pathText_cons, dotted]

theorem key_pathText {path : List String} (key : String) (hpath : path.length < depthLimit - 1)
    (rest : List Char) :
    Toml.key ((pathText (path ++ [key])).toList ++ ']' :: rest) = some (⟨path, key⟩, ']' :: rest) := by
  obtain ⟨k, ks, hcons⟩ := List.exists_cons_of_ne_nil (List.concat_ne_nil key path)
  have hlength := congrArg List.length hcons
  rw [List.length_append, List.length_singleton, List.length_cons] at hlength
  have hskip : skipBlanks (']' :: rest) = ']' :: rest := rfl
  rw [Toml.key, hcons, toList_pathText_cons, keyParts_dotted k ks (by omega) (by rintro c ⟨⟩; rfl)
    (by rintro ⟨⟩), ← hcons, hskip]
  simp

theorem reads_bracket {text : List Char} {line : Line} (hlength : cs.length ≤ text.length)
    (hline : headerLine text = some (line, '\n' :: cs)) (h : Reads cs ls) :
    Reads ('[' :: text) (line :: ls) := by
  intro bound hbound
  obtain ⟨bound, rfl⟩ := Nat.exists_eq_add_one_of_ne_zero (Nat.ne_zero_of_lt hbound)
  have hskip (cs : List Char) : skipBlanks ('[' :: cs) = '[' :: cs := rfl
  have hend : endLine ('\n' :: cs) = some cs := rfl
  have hrest : lines bound cs = some ls :=
    h bound (Nat.lt_of_le_of_lt hlength (Nat.lt_of_succ_lt_succ hbound))
  rw [lines, hskip]
  simp only [hline, Option.bind_eq_bind, Option.bind_some, hend, hrest]
  rfl

theorem Reads.header {path : List String} (key : String) (hpath : path.length < depthLimit - 1)
    (h : Reads cs ls) :
    Reads ('[' :: ((pathText (path ++ [key])).toList ++ ']' :: '\n' :: cs))
      (.header ⟨path, key⟩ :: ls) := by
  refine reads_bracket (by simp; omega) ?_ h
  have hkey := key_pathText key hpath ('\n' :: cs)
  obtain ⟨c, rest, hcons, hc⟩ := exists_pathText_eq_cons (List.concat_ne_nil key path)
  rw [hcons, List.cons_append] at hkey ⊢
  rw [headerLine]
  · simp only [hkey, Option.bind_eq_bind, Option.bind_some]
    rfl
  · exact fun rest h ↦ hc (List.cons.inj h).1

theorem Reads.next {path : List String} (key : String) (hpath : path.length < depthLimit - 1)
    (h : Reads cs ls) :
    Reads ('[' :: '[' :: ((pathText (path ++ [key])).toList ++ ']' :: ']' :: '\n' :: cs))
      (.next ⟨path, key⟩ :: ls) := by
  refine reads_bracket (by simp; omega) ?_ h
  rw [headerLine, key_pathText key hpath]
  rfl

/-! ## Rows of lines -/

/-- The text is that of the lines, whatever comes after it. -/
def Shows (text : List Char) (shown : List Line) : Prop :=
  ∀ cs ls, Reads cs ls → Reads (text ++ cs) (shown ++ ls)

theorem shows_nil : Shows [] [] := fun _ _ ↦ id

theorem Shows.append {text text' : List Char} {shown shown' : List Line} (h : Shows text shown)
    (h' : Shows text' shown') : Shows (text ++ text') (shown ++ shown') := by
  intro cs ls hcs
  rw [List.append_assoc, List.append_assoc]
  exact h _ _ (h' cs ls hcs)

/-- Blocks with an empty line in front of each. -/
def apart (blocks : List String) : List Char := blocks.flatMap fun block ↦ '\n' :: block.toList

theorem apart_append (blocks blocks' : List String) :
    apart (blocks ++ blocks') = apart blocks ++ apart blocks' := List.flatMap_append

/-- Everything that the table at a path has in it is read back. -/
def ShowsTable (path : List String) (entries : List (String × Tree)) : Prop :=
  Shows ((plainLines entries).toList ++ apart (blocks (pathText path) entries))
    ((pairLines entries ++ blockLines entries).map (.under path))

theorem toList_plainLines (entries : List (String × Tree)) :
    (plainLines entries).toList =
      (plain entries).flatMap fun e ↦ pairText e ++ ['\n'] := by
  simp [plainLines, plain, String.toList_join, List.flatMap_map, pairText]

theorem map_under_pairLines (path : List String) (entries : List (String × Tree)) :
    (pairLines entries).map (.under path) = pairLines entries := by
  simp [pairLines]

theorem shows_pairTexts {entries : List (String × Tree)}
    (h : ∀ e ∈ entries, ReadsValue (value (depthLimit - 1)) e.2) :
    Shows (entries.flatMap fun e ↦ pairText e ++ ['\n'])
      (entries.map fun e ↦ .pair ⟨[], e.1⟩ e.2) := by
  induction entries with
  | nil => exact shows_nil
  | cons e entries ih =>
    intro cs ls hcs
    have hrest := ih (fun e' he' ↦ h e' (List.mem_cons_of_mem e he')) cs ls hcs
    simpa using hrest.pair (h e List.mem_cons_self)

theorem shows_plainLines {entries : List (String × Tree)}
    (h : ∀ e ∈ entries, ReadsValue (value (depthLimit - 1)) e.2) :
    Shows (plainLines entries).toList (pairLines entries) := by
  rw [toList_plainLines, pairLines]
  exact shows_pairTexts fun e he ↦ h e (List.mem_of_mem_filter he)

theorem shows_elementBlocks {path : List String} {key : String} {items : List Tree}
    (hpath : path.length < depthLimit - 1)
    (h : ∀ entries, .table entries ∈ items → ShowsTable (path ++ [key]) entries) :
    Shows (apart (elementBlocks (pathText (path ++ [key])) items))
      ((elementLines key items).map (.under path)) := by
  induction items with
  | nil => exact shows_nil
  | cons t items ih =>
    have hrest := ih fun entries hentries ↦ h entries (List.mem_cons_of_mem t hentries)
    cases t with
    | table entries =>
      intro cs ls hcs
      have htable := h entries List.mem_cons_self _ _ (hrest cs ls hcs)
      have hnext := reads_newline_iff.mpr (htable.next key hpath)
      simpa [elementBlocks, elementLines, apart, Function.comp_def] using hnext
    | _ => simpa [elementBlocks, elementLines] using hrest

theorem plain_eq_nil {entries : List (String × Tree)} (h : ¬ needsHeader entries) :
    plain entries = [] := by
  simp only [needsHeader, Bool.or_eq_true, not_or, Bool.not_eq_true, List.any_eq_false] at h
  exact List.filter_eq_nil_iff.mpr fun e he ↦ by simpa using h.2 e he

theorem shows_sectionBlocks {depth : Nat} {path : List String} (key : String) {t : Tree}
    (hpath : path.length + depth < depthLimit) (ht : t.Regular depth) (hfits : fits t)
    (h : ∀ entries, (Tree.table entries).Regular depth → entriesFit entries →
      ShowsTable (path ++ [key]) entries) :
    Shows (apart (sectionBlocks (pathText (path ++ [key])) t))
      ((sectionLines key t).map (.under path)) := by
  cases ht with
  | string s => exact shows_nil
  | integer n => exact shows_nil
  | @list depth items hitems =>
    rw [sectionBlocks, sectionLines]
    split_ifs with hall
    · have habove : path.length < depthLimit - 1 := by
        simp only [depthLimit] at hpath ⊢
        omega
      refine shows_elementBlocks habove fun entries hentries ↦ ?_
      have hregular := (hitems _ hentries).mono (Nat.le_succ depth)
      exact h entries hregular (itemsFit_iff.mp hfits _ hentries)
    · exact shows_nil
  | @table depth entries hkeys hentries =>
    have htable := h entries (.table hkeys hentries) hfits
    rw [sectionBlocks, sectionLines]
    split_ifs with hheader
    · intro cs ls hcs
      have habove : path.length < depthLimit - 1 := by
        simp only [depthLimit] at hpath ⊢
        omega
      have hrest := (htable cs ls hcs).header key habove
      have hblock := reads_newline_iff.mpr hrest
      simpa [apart, Function.comp_def] using hblock
    · rw [ShowsTable, toList_plainLines, plain_eq_nil hheader] at htable
      simpa [Function.comp_def] using htable

theorem shows_blocks {path : List String} {entries : List (String × Tree)}
    (h : ∀ e ∈ entries, Shows (apart (sectionBlocks (pathText (path ++ [e.1])) e.2))
      ((sectionLines e.1 e.2).map (.under path))) :
    Shows (apart (blocks (pathText path) entries)) ((blockLines entries).map (.under path)) := by
  induction entries with
  | nil => exact shows_nil
  | cons e entries ih =>
    rw [blocks, blockLines, join_pathText, apart_append, List.map_append]
    exact (h e List.mem_cons_self).append (ih fun e' he' ↦ h e' (List.mem_cons_of_mem e he'))

theorem showsTable_of_regular {depth : Nat} (path : List String) {entries : List (String × Tree)}
    (hpath : path.length + depth ≤ depthLimit) (ht : (Tree.table entries).Regular depth)
    (hfits : entriesFit entries) : ShowsTable path entries := by
  induction depth generalizing path entries with
  | zero => cases ht
  | succ depth ih =>
    have hentries := (Tree.regular_table_iff.mp ht).2
    have hfits := entriesFit_iff.mp hfits
    have hdepth : depth ≤ depthLimit - 1 := by omega
    rw [ShowsTable, List.map_append, map_under_pairLines]
    refine (shows_plainLines fun e he ↦ ?_).append (shows_blocks fun e he ↦ ?_)
    · exact readsValue_of_regular ((hentries e he).mono hdepth) (hfits e he)
    · have hbelow : (path ++ [e.1]).length + depth ≤ depthLimit := by
        rw [List.length_append, List.length_singleton]
        omega
      exact shows_sectionBlocks e.1 (by omega) (hentries e he) (hfits e he) fun _ ↦ ih _ hbelow

/-- A document is read back line by line. -/
theorem reads_of_write? {entries : List (String × Tree)} {text : String}
    (h : (Tree.table entries).Regular depthLimit) (hwrite : write? entries = some text) :
    Reads text.toList (pairLines entries ++ blockLines entries) := by
  unfold write? at hwrite
  split_ifs at hwrite with hfits
  have hunder : (Line.under [] : Line → Line) = id := by
    funext l
    cases l <;> rfl
  have htable := showsTable_of_regular [] (by simp) h hfits [] [] reads_nil
  rw [hunder, List.map_id, List.append_nil, List.append_nil] at htable
  cases hwrite
  rw [String.toList_intercalate]
  split_ifs with htop
  · rw [String.isEmpty_iff.mp htop] at htable
    change Reads ([] ++ apart (blocks "" entries)) _ at htable
    rw [List.nil_append] at htable ⊢
    cases hblocks : blocks "" entries with
    | nil => simpa [hblocks, apart] using htable
    | cons block rest =>
      rw [hblocks] at htable
      refine reads_newline_iff.mp ?_
      simpa [apart, intercalate_cons, List.flatMap_map] using htable
  · change Reads ((plainLines entries).toList ++ apart (blocks "" entries)) _ at htable
    simpa [apart, intercalate_cons, List.flatMap_map] using htable

end Dataflow.Toml
