import Dataflow.Proofs.Document.Toml.Quoted
import Dataflow.Proofs.Document.Toml.Scalar
import Dataflow.Proofs.Document.Toml.Section
import Dataflow.Proofs.Document.Tree

/-!
# Keys and values are read back

A value is followed by the end of its line, by a blank, or by a comma or a bracket of the list it
stands in, and none of these can belong to it. So a value is read back whatever comes after that, and
lists and tables are read back as their elements are.
-/

namespace Dataflow.Toml

/-! ## Blanks -/

/-- The text begins with a character that no reader skips and that closes nothing. -/
def Firm (cs : List Char) : Prop :=
  ∃ c rest, cs = c :: rest ∧ c ∉ [' ', '\t', '\n', '\r', '#', ']', '\x7d', '.', ',']

theorem Firm.append {cs : List Char} (h : Firm cs) (rest : List Char) : Firm (cs ++ rest) := by
  obtain ⟨c, tail, rfl, hc⟩ := h
  exact ⟨c, tail ++ rest, rfl, hc⟩

theorem Firm.skipBlanks {cs : List Char} (h : Firm cs) : skipBlanks cs = cs := by
  obtain ⟨c, rest, rfl, hc⟩ := h
  have hblank : isBlank c = false := by
    simp only [List.mem_cons, not_or] at hc
    simp [isBlank, hc]
  rw [Toml.skipBlanks, List.dropWhile_cons, hblank]
  rfl

theorem Firm.skipLines {cs : List Char} (h : Firm cs) : skipLines false cs = some cs := by
  obtain ⟨c, rest, rfl, hc⟩ := h
  simp only [List.mem_cons, not_or] at hc
  rw [Toml.skipLines] <;> simp_all

/-! ## Keys -/

theorem quoteKey_cases (k : String) :
    (k.toList ≠ [] ∧ (∀ c ∈ k.toList, isBareKeyChar c) ∧ (quoteKey k).toList = k.toList) ∨
      ((∀ c ∈ k.toList, isPlain c) ∧ '\'' ∉ k.toList ∧
        (quoteKey k).toList = '\'' :: (k.toList ++ ['\''])) ∨
      (quoteKey k).toList = '"' :: (basicBody k.toList ++ ['"']) := by
  unfold quoteKey
  dsimp only
  split_ifs with hbare hsingle
  · simp only [Bool.and_eq_true, Bool.not_eq_true', List.isEmpty_eq_false_iff,
      List.all_eq_true] at hbare
    exact .inl ⟨hbare.1, hbare.2, rfl⟩
  · simp only [Bool.and_eq_true, List.all_eq_true, Bool.not_eq_true', List.contains_eq_mem,
      decide_eq_false_iff_not] at hsingle
    exact .inr (.inl ⟨hsingle.1.2, hsingle.2, String.toList_ofList⟩)
  · exact .inr (.inr String.toList_ofList)

/-- A key begins with a quote or with one of its own characters. -/
theorem exists_quoteKey_eq_cons (k : String) :
    ∃ c rest, (quoteKey k).toList = c :: rest ∧ (isBareKeyChar c ∨ c = '"' ∨ c = '\'') := by
  rcases quoteKey_cases k with ⟨hne, hbare, htext⟩ | ⟨-, -, htext⟩ | htext
  · obtain ⟨c, rest, hcons⟩ := List.exists_cons_of_ne_nil hne
    exact ⟨c, rest, htext.trans hcons, .inl (hbare c (hcons ▸ List.mem_cons_self))⟩
  · exact ⟨'\'', _, htext, .inr (.inr rfl)⟩
  · exact ⟨'"', _, htext, .inr (.inl rfl)⟩

theorem firm_quoteKey (k : String) : Firm (quoteKey k).toList := by
  obtain ⟨c, rest, htext, hc⟩ := exists_quoteKey_eq_cons k
  have hnone : ∀ c ∈ [' ', '\t', '\n', '\r', '#', ']', '\x7d', '.', ','],
      ¬ (isBareKeyChar c ∨ c = '"' ∨ c = '\'') := by
    simp [isBareKeyChar, isLetter, isDigit]
  exact ⟨c, rest, htext, fun hmem ↦ hnone c hmem hc⟩

theorem simpleKey_quoteKey (k : String) {rest : List Char}
    (hrest : ∀ c ∈ rest.head?, isBareKeyChar c = false) :
    simpleKey ((quoteKey k).toList ++ rest) = some (k, rest) := by
  rcases quoteKey_cases k with ⟨hne, hbare, htext⟩ | ⟨hplain, hquote, htext⟩ | htext
  · obtain ⟨c, tail, hcons⟩ := List.exists_cons_of_ne_nil hne
    have hc := hbare c (hcons ▸ List.mem_cons_self)
    have hdouble : c ≠ '"' := by
      rintro rfl
      cases hc
    have hsingle : c ≠ '\'' := by
      rintro rfl
      cases hc
    have hkey : quotedKey (k.toList ++ rest) = none := by
      rw [hcons, List.cons_append, quotedKey] <;> simp [hdouble, hsingle]
    obtain ⟨htake, hdrop⟩ := span_append hbare hrest
    rw [htext, simpleKey, hkey]
    simp only [htake, hdrop, String.ofList_toList]
    rw [if_neg (by simpa using hne)]
  · have hkey : quotedKey ('\'' :: (k.toList ++ ['\'']) ++ rest) = some (k.toList, rest) := by
      rw [List.cons_append, List.append_assoc]
      exact literal_append hplain hquote rest
    rw [htext, simpleKey, hkey]
    simp
  · have hkey : quotedKey ('"' :: (basicBody k.toList ++ ['"']) ++ rest) = some (k.toList, rest) := by
      rw [List.cons_append, List.append_assoc]
      exact basic_basicBody k.toList rest
    rw [htext, simpleKey, hkey]
    simp

/-- A dotted key, as it stands in a header. -/
def dotted (k : String) (ks : List String) : List Char :=
  (quoteKey k).toList ++ ks.flatMap fun k ↦ '.' :: (quoteKey k).toList

theorem keyParts_dotted (k : String) (ks : List String) {parts : Nat} (hparts : ks.length < parts)
    {rest : List Char} (hrest : ∀ c ∈ rest.head?, isBareKeyChar c = false)
    (hdot : (skipBlanks rest).head? ≠ some '.') :
    keyParts parts (dotted k ks ++ rest) = some (k :: ks, skipBlanks rest) := by
  obtain ⟨parts, rfl⟩ := Nat.exists_eq_add_one_of_ne_zero (Nat.ne_zero_of_lt hparts)
  induction ks generalizing k parts with
  | nil =>
    rw [keyParts, dotted, List.flatMap_nil, List.append_nil,
      ((firm_quoteKey k).append rest).skipBlanks, simpleKey_quoteKey k hrest]
    simp only [Option.bind_eq_bind, Option.bind_some]
    split
    · rename_i h
      exact absurd (by rw [h, List.head?_cons]) hdot
    · rfl
  | cons k' ks ih =>
    have htail : dotted k (k' :: ks) ++ rest =
        (quoteKey k).toList ++ '.' :: (dotted k' ks ++ rest) := by
      simp [dotted]
    obtain ⟨parts, rfl⟩ := Nat.exists_eq_add_one_of_ne_zero
      (Nat.ne_zero_of_lt (Nat.lt_of_succ_lt_succ hparts))
    have hdotted : ∀ c ∈ ('.' :: (dotted k' ks ++ rest)).head?, isBareKeyChar c = false := by
      rintro c ⟨⟩
      rfl
    have hmore := ih k' parts (Nat.lt_of_succ_lt_succ hparts)
    rw [keyParts, htail, ((firm_quoteKey k).append _).skipBlanks,
      simpleKey_quoteKey k hdotted]
    have hskip : skipBlanks ('.' :: (dotted k' ks ++ rest)) = '.' :: (dotted k' ks ++ rest) := rfl
    simp only [Option.bind_eq_bind, Option.bind_some, hskip, hmore]
    rfl

theorem keyParts_blank (parts : Nat) (cs : List Char) :
    keyParts parts (' ' :: cs) = keyParts parts cs := by
  cases parts <;> rfl

/-- A key with its value, as it stands on a line or in a table on one line. -/
def pairText (entry : String × Tree) : List Char :=
  (quoteKey entry.1).toList ++ ' ' :: '=' :: ' ' :: (inline entry.2).toList

theorem firm_pairText (entry : String × Tree) : Firm (pairText entry) :=
  (firm_quoteKey entry.1).append _

theorem pairWith_blank (element : ValueReader) (cs : List Char) :
    pairWith element (' ' :: cs) = pairWith element cs := by
  rw [pairWith, pairWith, key, key, keyParts_blank]

theorem pairWith_pairText {element : ValueReader} {entry : String × Tree} {rest : List Char}
    (hfirm : Firm (inline entry.2).toList)
    (h : element ((inline entry.2).toList ++ rest) = some (entry.2, rest)) :
    pairWith element (pairText entry ++ rest) =
      some ((⟨[], entry.1⟩, entry.2), skipBlanks rest) := by
  have hparts (cs : List Char) : keyParts (depthLimit - 1) (dotted entry.1 [] ++ ' ' :: '=' :: cs) =
      some ([entry.1], '=' :: cs) :=
    keyParts_dotted entry.1 [] (by decide) (by rintro c ⟨⟩; rfl) (by rintro ⟨⟩)
  have htext : pairText entry ++ rest =
      dotted entry.1 [] ++ ' ' :: '=' :: ' ' :: ((inline entry.2).toList ++ rest) := by
    simp [pairText, dotted]
  have hequals (cs : List Char) : expect '=' ('=' :: cs) = some cs := rfl
  have hskip : skipBlanks (' ' :: ((inline entry.2).toList ++ rest)) =
      (inline entry.2).toList ++ rest := (hfirm.append rest).skipBlanks
  rw [pairWith, key, htext, hparts]
  simp only [Option.bind_eq_bind, Option.bind_some, Option.pure_def, hequals, hskip, h]
  rfl

/-! ## Scalars -/

/-- What may stand behind a value. -/
def Follows (rest : List Char) : Prop := ∀ c ∈ rest.head?, c ∈ ['\n', ',', ' ', ']']

theorem Follows.of_head {c : Char} (rest : List Char) (h : c ∈ ['\n', ',', ' ', ']']) :
    Follows (c :: rest) := by
  rintro d ⟨⟩
  exact h

theorem exists_quote_eq_cons (s : String) :
    ∃ c rest, (quote s).toList = c :: rest ∧ (c = '"' ∨ c = '\'') := by
  unfold quote
  simp only [String.toList_ofList]
  cases Quotes.choose (TextTraits.of s.toList) with
  | basic => exact ⟨_, _, rfl, .inl rfl⟩
  | literal => exact ⟨_, _, rfl, .inr rfl⟩
  | basicLines => exact ⟨_, _, rfl, .inl rfl⟩
  | literalLines => exact ⟨_, _, rfl, .inr rfl⟩

theorem exists_intText_eq_cons (n : Int) :
    ∃ c rest, (Decimal.intText n).toList = c :: rest ∧ (isDigit c ∨ c = '-') := by
  cases n with
  | ofNat n =>
    obtain ⟨c, rest, hcons⟩ := List.exists_cons_of_ne_nil (Decimal.digits_ne_nil n)
    exact ⟨c, rest, (toList_intText_ofNat n).trans hcons,
      .inl (isDigit_of_mem_digits (hcons ▸ List.mem_cons_self))⟩
  | negSucc n => exact ⟨'-', _, toList_intText_negSucc n, .inr rfl⟩

theorem value_eq_scalar (depth : Nat) {c : Char} (hbracket : c ≠ '[') (hbrace : c ≠ '\x7b')
    (cs : List Char) : value depth (c :: cs) = scalar (c :: cs) := by
  cases depth with
  | zero => rfl
  | succ depth => rw [value] <;> simp [hbracket, hbrace]

theorem value_quote (depth : Nat) (s : String) {rest : List Char} (hrest : Follows rest) :
    value depth ((quote s).toList ++ rest) = some (.string s, rest) := by
  have hnone {c : Char} (hc : c ∉ ['\n', ',', ' ', ']']) : rest.head? ≠ some c := fun h ↦
    hc (hrest c h)
  have hquoted := quoted_quote s (hnone (c := '"') (by decide)) (hnone (c := '\'') (by decide))
  obtain ⟨c, tail, hcons, hc⟩ := exists_quote_eq_cons s
  rw [hcons, List.cons_append] at hquoted ⊢
  rcases hc with rfl | rfl <;>
    rw [value_eq_scalar depth (by decide) (by decide), scalar, hquoted] <;> simp

theorem value_intText (depth : Nat) {n : Int} (hn : fitInteger n = some n) {rest : List Char}
    (hrest : Follows rest) :
    value depth ((Decimal.intText n).toList ++ rest) = some (.integer n, rest) := by
  have hnone : ∀ c ∈ ['\n', ',', ' ', ']'], isScalarChar c = false := by
    simp [isScalarChar, isLetter, isDigit]
  have hbare := bare_intText hn fun c hc ↦ hnone c (hrest c hc)
  obtain ⟨c, tail, hcons, hc⟩ := exists_intText_eq_cons n
  have hother {d : Char} (hd : ¬ (isDigit d ∨ d = '-')) : c ≠ d := fun h ↦ hd (h ▸ hc)
  rw [hcons, List.cons_append] at hbare ⊢
  rw [value_eq_scalar depth (hother (by decide)) (hother (by decide)), scalar, hbare]
  · exact fun _ h ↦ hother (d := '"') (by decide) (List.cons.inj h).1
  · exact fun _ h ↦ hother (d := '\'') (by decide) (List.cons.inj h).1

/-! ## Lists and tables -/

theorem itemLines_eq_map (items : List Tree) :
    itemLines items = items.map fun t ↦ "    " ++ inline t ++ ",\n" := by
  induction items with
  | nil => rw [itemLines, List.map_nil]
  | cons t items ih => rw [itemLines, ih, List.map_cons]

theorem inlinePairs_eq_map (entries : List (String × Tree)) :
    inlinePairs entries = entries.map fun entry ↦ quoteKey entry.1 ++ " = " ++ inline entry.2 := by
  induction entries with
  | nil => rw [inlinePairs, List.map_nil]
  | cons entry entries ih => rw [inlinePairs, ih, List.map_cons]

/-- The element of a list on a line of its own. -/
def itemText (t : Tree) : List Char :=
  ' ' :: ' ' :: ' ' :: ' ' :: ((inline t).toList ++ [',', '\n'])

theorem intercalate_cons {α : Type} (sep l : List α) (ls : List (List α)) :
    sep.intercalate (l :: ls) = l ++ ls.flatMap (sep ++ ·) := by
  induction ls generalizing l with
  | nil => simp
  | cons l' ls ih =>
    rw [List.intercalate_cons_cons, ih, List.flatMap_cons, List.append_assoc, List.append_assoc]

theorem toList_inline_list (t t' : Tree) (rest : List Tree) :
    (inline (.list (t :: t' :: rest))).toList =
      '[' :: '\n' :: ((t :: t' :: rest).flatMap itemText ++ [']']) := by
  rw [inline, itemLines_eq_map]
  · simp [String.toList_join, List.flatMap_map, itemText]
    rfl
  · simp

theorem toList_inline_table (entry : String × Tree) (rest : List (String × Tree)) :
    (inline (.table (entry :: rest))).toList =
      '\x7b' :: ' ' :: (pairText entry ++
        (rest.flatMap (fun e ↦ ',' :: ' ' :: pairText e) ++ [' ', '\x7d'])) := by
  rw [inline, inlinePairs_eq_map]
  simp [String.toList_intercalate, intercalate_cons, List.flatMap_map, Function.comp_def, pairText]

theorem firm_inline {depth : Nat} {t : Tree} (h : t.Regular depth) : Firm (inline t).toList := by
  cases h with
  | string s =>
    obtain ⟨c, rest, hcons, hc⟩ := exists_quote_eq_cons s
    refine ⟨c, rest, hcons, ?_⟩
    rcases hc with rfl | rfl <;> decide
  | integer n =>
    obtain ⟨c, rest, hcons, hc⟩ := exists_intText_eq_cons n
    have hnone : ∀ c ∈ [' ', '\t', '\n', '\r', '#', ']', '\x7d', '.', ','],
        ¬ (isDigit c ∨ c = '-') := by
      simp [isDigit]
    exact ⟨c, rest, hcons, fun hmem ↦ hnone c hmem hc⟩
  | @list _ items =>
    rcases items with _ | ⟨t, _ | ⟨t', rest⟩⟩
    · exact ⟨'[', [']'], rfl, by decide⟩
    · exact ⟨'[', (inline t).toList ++ [']'], by simp [inline], by decide⟩
    · exact ⟨'[', _, toList_inline_list t t' rest, by decide⟩
  | @table _ entries =>
    cases entries with
    | nil => exact ⟨'\x7b', ['\x7d'], rfl, by decide⟩
    | cons entry rest => exact ⟨'\x7b', _, toList_inline_table entry rest, by decide⟩

/-- The reader takes the written value for what it was. -/
def ReadsValue (element : ValueReader) (t : Tree) : Prop :=
  Firm (inline t).toList ∧
    ∀ rest, Follows rest → element ((inline t).toList ++ rest) = some (t, rest)

variable {element : ValueReader}

theorem listItems_of_firm {bound : Nat} {cs cs' : List Char} (hskip : skipLines false cs = some cs')
    (hfirm : Firm cs') :
    listItems element (bound + 1) cs = (do
      let (first, rest) ← element cs'
      match ← skipLines false rest with
      | ']' :: rest => return ([first], rest)
      | ',' :: rest =>
        let (items, rest) ← listItems element bound rest
        return (first :: items, rest)
      | _ => none) := by
  obtain ⟨c, tail, rfl, hc⟩ := hfirm
  have hbracket : c ≠ ']' := by
    rintro rfl
    exact hc (by decide)
  rw [listItems, hskip]
  split
  · cases ‹some (c :: tail) = none›
  · cases ‹some (c :: tail) = some (']' :: _)›
    exact absurd rfl hbracket
  · cases ‹some (c :: tail) = some _›
    rfl

theorem listItems_itemTexts {items : List Tree} (h : ∀ t ∈ items, ReadsValue element t)
    {bound : Nat} (hbound : items.length < bound) (rest : List Char) :
    listItems element bound ('\n' :: (items.flatMap itemText ++ ']' :: rest)) =
      some (items, rest) := by
  obtain ⟨bound, rfl⟩ := Nat.exists_eq_add_one_of_ne_zero (Nat.ne_zero_of_lt hbound)
  induction items generalizing bound with
  | nil => rfl
  | cons t items ih =>
    obtain ⟨bound, rfl⟩ := Nat.exists_eq_add_one_of_ne_zero
      (Nat.ne_zero_of_lt (Nat.lt_of_succ_lt_succ hbound))
    have hmore := ih (fun u hu ↦ h u (List.mem_cons_of_mem t hu)) bound
      (Nat.lt_of_succ_lt_succ hbound)
    obtain ⟨hfirm, hread⟩ := h t List.mem_cons_self
    have htext : '\n' :: ((t :: items).flatMap itemText ++ ']' :: rest) =
        '\n' :: ' ' :: ' ' :: ' ' :: ' ' :: ((inline t).toList ++
          ',' :: '\n' :: (items.flatMap itemText ++ ']' :: rest)) := by
      simp [itemText]
    have hskip (cs : List Char) : skipLines false ('\n' :: ' ' :: ' ' :: ' ' :: ' ' :: cs) =
        skipLines false cs := rfl
    have hcomma (cs : List Char) : skipLines false (',' :: cs) = some (',' :: cs) := rfl
    rw [htext, listItems_of_firm ((hskip _).trans (hfirm.append _).skipLines) (hfirm.append _),
      hread _ (.of_head _ (by decide))]
    simp only [Option.bind_eq_bind, Option.bind_some, hcomma, hmore]
    rfl

theorem inlineTable_of_firm {cs cs' : List Char} (hskip : skipBlanks cs = cs') (hfirm : Firm cs') :
    inlineTable element cs =
      (inlineEntries element cs'.length [] cs').map fun (es, rest) ↦
        (.table (entriesToTrees es), rest) := by
  obtain ⟨c, tail, rfl, hc⟩ := hfirm
  have hbrace : c ≠ '\x7d' := by
    rintro rfl
    exact hc (by decide)
  rw [inlineTable, hskip]
  split
  · cases ‹c :: tail = '\x7d' :: _›
    exact absurd rfl hbrace
  · rfl

theorem inlineEntries_blank (element : ValueReader) (bound : Nat) (done : Entries)
    (cs : List Char) :
    inlineEntries element bound done (' ' :: cs) = inlineEntries element bound done cs := by
  cases bound with
  | zero => rfl
  | succ bound => rw [inlineEntries, inlineEntries, pairWith_blank]

theorem inlineEntries_pairTexts {entry : String × Tree} {entries : List (String × Tree)}
    (done : List (String × Tree)) (h : ∀ e ∈ entry :: entries, ReadsValue element e.2)
    (hkeys : ((done ++ entry :: entries).map Prod.fst).Nodup) {bound : Nat}
    (hbound : entries.length < bound) (rest : List Char) :
    inlineEntries element bound (values done)
        (pairText entry ++
          (entries.flatMap (fun e ↦ ',' :: ' ' :: pairText e) ++ ' ' :: '\x7d' :: rest)) =
      some (values (done ++ entry :: entries), rest) := by
  obtain ⟨bound, rfl⟩ := Nat.exists_eq_add_one_of_ne_zero (Nat.ne_zero_of_lt hbound)
  induction entries generalizing entry done bound with
  | nil =>
    obtain ⟨hfirm, hread⟩ := h entry List.mem_cons_self
    rw [inlineEntries, List.flatMap_nil, List.nil_append,
      pairWith_pairText hfirm (hread _ (.of_head _ (by decide)))]
    simp only [Option.bind_eq_bind, Option.bind_some, define_values hkeys]
    rfl
  | cons next entries ih =>
    obtain ⟨bound, rfl⟩ := Nat.exists_eq_add_one_of_ne_zero
      (Nat.ne_zero_of_lt (Nat.lt_of_succ_lt_succ hbound))
    have hmore := @ih next (done ++ [entry])
      (fun e he ↦ h e (List.mem_cons_of_mem entry he)) (by simpa using hkeys) bound
      (Nat.lt_of_succ_lt_succ hbound)
    obtain ⟨hfirm, hread⟩ := h entry List.mem_cons_self
    rw [inlineEntries, List.flatMap_cons, List.cons_append, List.cons_append, List.cons_append,
      pairWith_pairText hfirm (hread _ (.of_head _ (by decide)))]
    have hcomma (cs : List Char) : skipBlanks (',' :: cs) = ',' :: cs := rfl
    simp only [Option.bind_eq_bind, Option.bind_some, define_values hkeys, hcomma]
    rw [List.cons_append, inlineEntries_blank, List.append_assoc, hmore]
    simp

theorem itemsFit_iff {items : List Tree} : itemsFit items ↔ ∀ t ∈ items, fits t := by
  induction items with
  | nil => simp [itemsFit]
  | cons t items ih => simp [itemsFit, ih]

theorem entriesFit_iff {entries : List (String × Tree)} :
    entriesFit entries ↔ ∀ entry ∈ entries, fits entry.2 := by
  induction entries with
  | nil => simp [entriesFit]
  | cons entry entries ih => simp [entriesFit, ih]

/-- There are no more parts than characters in them. -/
theorem length_le_length_flatMap {α : Type} {f : α → List Char} (l : List α)
    (h : ∀ a ∈ l, f a ≠ []) : l.length ≤ (l.flatMap f).length := by
  induction l with
  | nil => exact Nat.zero_le _
  | cons a l ih =>
    have hrest := ih fun b hb ↦ h b (List.mem_cons_of_mem a hb)
    have hfirst := List.length_pos_of_ne_nil (h a List.mem_cons_self)
    rw [List.flatMap_cons, List.length_append, List.length_cons]
    omega

theorem value_list {depth : Nat} {items : List Tree} (h : ∀ t ∈ items, ReadsValue (value depth) t)
    (rest : List Char) :
    value (depth + 1) ((inline (.list items)).toList ++ rest) = some (.list items, rest) := by
  match items with
  | [] => rfl
  | [t] =>
    obtain ⟨hfirm, hread⟩ := h t List.mem_cons_self
    have htext : (inline (.list [t])).toList ++ rest = '[' :: ((inline t).toList ++ ']' :: rest) := by
      simp [inline]
    have hbracket (cs : List Char) : skipLines false (']' :: cs) = some (']' :: cs) := rfl
    rw [htext, value, List.length_cons,
      listItems_of_firm (hfirm.append _).skipLines (hfirm.append _),
      hread _ (.of_head _ (by decide))]
    simp only [Option.bind_eq_bind, Option.bind_some, hbracket]
    rfl
  | t :: t' :: items =>
    have hlength := length_le_length_flatMap (f := itemText) (t :: t' :: items) fun _ _ ↦
      List.cons_ne_nil _ _
    rw [toList_inline_list, List.cons_append, List.cons_append, List.append_assoc, value,
      List.singleton_append, listItems_itemTexts h]
    · rfl
    · simp only [List.length_cons, List.length_append] at hlength ⊢
      omega

theorem value_table {depth : Nat} {entries : List (String × Tree)}
    (hkeys : (entries.map Prod.fst).Nodup) (h : ∀ e ∈ entries, ReadsValue (value depth) e.2)
    (rest : List Char) :
    value (depth + 1) ((inline (.table entries)).toList ++ rest) = some (.table entries, rest) := by
  cases entries with
  | nil => rfl
  | cons entry entries =>
    have hlength := length_le_length_flatMap (f := fun e ↦ ',' :: ' ' :: pairText e) entries
      fun _ _ ↦ List.cons_ne_nil _ _
    have hfirm (cs : List Char) : Firm (pairText entry ++ cs) := (firm_pairText entry).append cs
    have hskip (cs : List Char) : skipBlanks (' ' :: (pairText entry ++ cs)) = pairText entry ++ cs :=
      (hfirm cs).skipBlanks
    have hentries {bound : Nat} (hbound : entries.length < bound) :=
      inlineEntries_pairTexts [] h hkeys hbound rest
    rw [toList_inline_table, List.cons_append, List.cons_append, List.append_assoc,
      List.append_assoc, value, inlineTable_of_firm (hskip _) (hfirm _)]
    refine (congrArg (Option.map _) (hentries ?_)).trans ?_
    · simp only [List.length_append, List.length_cons] at hlength ⊢
      omega
    · simp [entriesToTrees_values]

/-- A value is read back with as many containers in each other as the reader goes through. -/
theorem readsValue_of_regular {depth : Nat} {t : Tree} (h : t.Regular depth) (hfits : fits t) :
    ReadsValue (value depth) t := by
  refine ⟨firm_inline h, ?_⟩
  induction h with
  | string s => exact fun rest ↦ value_quote _ s
  | integer n =>
    exact fun rest ↦ value_intText _ (by simpa [fits, fitInteger] using hfits)
  | list hitems ih =>
    have hfits := itemsFit_iff.mp hfits
    exact fun rest _ ↦
      value_list (fun t ht ↦ ⟨firm_inline (hitems t ht), ih t ht (hfits t ht)⟩) rest
  | table hkeys hentries ih =>
    have hfits := entriesFit_iff.mp hfits
    exact fun rest _ ↦
      value_table hkeys (fun e he ↦ ⟨firm_inline (hentries e he), ih e he (hfits e he)⟩) rest

end Dataflow.Toml
