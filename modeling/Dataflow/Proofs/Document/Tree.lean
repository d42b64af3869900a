import Dataflow.Document.Tree
import Mathlib.Data.List.Basic
import Mathlib.Data.List.Nodup

/-!
# Trees that are the same

Two trees are the same if they differ in the order of table entries only. Where no table has a key
twice, an entry is found under its key in both.
-/

namespace Dataflow

theorem lookup_eq_none_of_not_mem {α : Type} {key : String} {entries : List (String × α)}
    (h : key ∉ entries.map Prod.fst) : entries.lookup key = none := by
  refine List.lookup_eq_none_iff.mpr fun entry hentry ↦ bne_iff_ne.mpr ?_
  rintro rfl
  exact h (List.mem_map_of_mem hentry)

namespace Tree

/-! ## Regular trees -/

/-- A tree of texts and integers that has no key twice in a table, and at most `depth` containers in
each other. -/
inductive Regular : (depth : Nat) → Tree → Prop where
  | string {depth : Nat} (s : String) : Regular depth (.string s)
  | integer {depth : Nat} (n : Int) : Regular depth (.integer n)
  | list {depth : Nat} {items : List Tree} (hitems : ∀ t ∈ items, Regular depth t) :
    Regular (depth + 1) (.list items)
  | table {depth : Nat} {entries : List (String × Tree)} (hkeys : (entries.map Prod.fst).Nodup)
      (hentries : ∀ entry ∈ entries, Regular depth entry.2) :
    Regular (depth + 1) (.table entries)

theorem regular_table_iff {depth : Nat} {entries : List (String × Tree)} :
    (table entries).Regular (depth + 1) ↔
      (entries.map Prod.fst).Nodup ∧ ∀ entry ∈ entries, entry.2.Regular depth := by
  constructor
  · rintro ⟨⟩
    exact ⟨‹_›, ‹_›⟩
  · exact fun h ↦ .table h.1 h.2

theorem Regular.mono {depth depth' : Nat} {t : Tree} (h : t.Regular depth) (hle : depth ≤ depth') :
    t.Regular depth' := by
  induction h generalizing depth' with
  | string s => exact .string s
  | integer n => exact .integer n
  | list _ ih =>
    obtain ⟨depth', rfl⟩ := Nat.exists_eq_add_one_of_ne_zero (Nat.ne_zero_of_lt hle)
    exact .list fun t ht ↦ ih t ht (Nat.le_of_succ_le_succ hle)
  | table hkeys _ ih =>
    obtain ⟨depth', rfl⟩ := Nat.exists_eq_add_one_of_ne_zero (Nat.ne_zero_of_lt hle)
    exact .table hkeys fun entry hentry ↦ ih entry hentry (Nat.le_of_succ_le_succ hle)

/-! ## Equality up to the order of entries -/

mutual

/-- The trees differ in the order of table entries only. -/
inductive Same : Tree → Tree → Prop where
  | string (s : String) : Same (.string s) (.string s)
  | integer (n : Int) : Same (.integer n) (.integer n)
  | literal (text : String) : Same (.literal text) (.literal text)
  | list {items items' : List Tree} (h : List.Forall₂ Same items' items) :
    Same (.list items') (.list items)
  | table {entries entries' : List (String × Tree)} (h : SameEntries entries' entries) :
    Same (.table entries') (.table entries)

/-- Each of the entries is found among the others. -/
inductive SameEntries : List (String × Tree) → List (String × Tree) → Prop where
  | nil : SameEntries [] []
  | cons {key : String} {t t' : Tree} (front : List (String × Tree))
      {back entries : List (String × Tree)} (h : Same t' t)
      (hrest : SameEntries (front ++ back) entries) :
    SameEntries (front ++ (key, t') :: back) ((key, t) :: entries)

end

variable {t t' : Tree} {entries entries' : List (String × Tree)}

@[simp]
theorem same_string_iff {s : String} : t'.Same (.string s) ↔ t' = .string s := by
  constructor
  · rintro ⟨⟩
    rfl
  · rintro rfl
    exact .string s

@[simp]
theorem same_integer_iff {n : Int} : t'.Same (.integer n) ↔ t' = .integer n := by
  constructor
  · rintro ⟨⟩
    rfl
  · rintro rfl
    exact .integer n

@[simp]
theorem same_natural_iff {n : Nat} : t'.Same (.natural n) ↔ t' = .natural n := same_integer_iff

theorem SameEntries.refl (h : ∀ entry ∈ entries, entry.2.Same entry.2) :
    SameEntries entries entries := by
  induction entries with
  | nil => exact .nil
  | cons entry entries ih =>
    exact .cons [] (h entry List.mem_cons_self)
      (ih fun other hother ↦ h other (List.mem_cons_of_mem entry hother))

theorem Regular.same_refl {depth : Nat} (h : t.Regular depth) : t.Same t := by
  induction h with
  | string s => exact .string s
  | integer n => exact .integer n
  | list _ ih => exact .list (List.forall₂_same.mpr ih)
  | table _ _ ih => exact .table (.refl ih)

/-- Some of the entries may come first. -/
theorem SameEntries.filter_append {p : String × Tree → Bool}
    (hrefl : ∀ entry ∈ entries, entry.2.Same entry.2)
    (h : SameEntries entries' (entries.filter p)) :
    SameEntries (entries.filter (fun entry ↦ !p entry) ++ entries') entries := by
  induction entries generalizing entries' with
  | nil => simpa using h
  | cons entry entries ih =>
    have hentries := fun other hother ↦ hrefl other (List.mem_cons_of_mem entry hother)
    by_cases hp : p entry
    · have hnot : ¬ (!p entry) = true := by simp [hp]
      rw [List.filter_cons_of_pos hp] at h
      rw [List.filter_cons_of_neg (p := fun entry ↦ !p entry) hnot]
      cases h with
      | @cons key t t' front back _ h hrest =>
        have hmerged := ih hentries hrest
        rw [← List.append_assoc] at hmerged ⊢
        exact .cons _ h hmerged
    · have hnot : (!p entry) = true := by simp [hp]
      rw [List.filter_cons_of_neg hp] at h
      rw [List.filter_cons_of_pos (p := fun entry ↦ !p entry) hnot, List.cons_append]
      exact .cons [] (hrefl entry List.mem_cons_self) (ih hentries h)

/-- An entry is found under its key in both. -/
theorem SameEntries.rel_lookup (h : SameEntries entries' entries)
    (hkeys : (entries.map Prod.fst).Nodup) (key : String) :
    Option.Rel Same (entries'.lookup key) (entries.lookup key) := by
  induction entries generalizing entries' with
  | nil =>
    cases h
    exact .none
  | cons entry entries ih =>
    cases h with
    | @cons name t t' front back _ h hrest =>
      obtain ⟨hnew, hkeys⟩ := List.nodup_cons.mp hkeys
      have hrel := ih hrest hkeys
      rw [List.lookup_append] at hrel
      rw [List.lookup_append, List.lookup_cons, List.lookup_cons]
      by_cases hkey : key = name
      · subst hkey
        rw [lookup_eq_none_of_not_mem hnew] at hrel
        cases hfront : front.lookup key with
        | none => simpa using Option.Rel.some h
        | some other =>
          rw [hfront] at hrel
          cases hrel
      · simpa [beq_eq_false_iff_ne.mpr hkey] using hrel

theorem lookup_eq_some_of_mem {key : String} (hkeys : (entries.map Prod.fst).Nodup)
    (hmem : (key, t) ∈ entries) : entries.lookup key = some t := by
  induction entries with
  | nil => cases hmem
  | cons entry entries ih =>
    obtain ⟨hnew, hkeys⟩ := List.nodup_cons.mp hkeys
    rw [List.lookup_cons]
    rcases List.mem_cons.mp hmem with rfl | hmem
    · simp
    · have hne : key ≠ entry.1 := fun heq ↦ hnew (List.mem_map.mpr ⟨_, hmem, heq⟩)
      rw [beq_eq_false_iff_ne.mpr hne]
      exact ih hkeys hmem

theorem SameEntries.exists_lookup_eq {key : String} (h : SameEntries entries' entries)
    (hkeys : (entries.map Prod.fst).Nodup) (hlookup : entries.lookup key = some t) :
    ∃ t', entries'.lookup key = some t' ∧ t'.Same t := by
  have hrel := h.rel_lookup hkeys key
  rw [hlookup] at hrel
  cases hfound : entries'.lookup key with
  | none =>
    rw [hfound] at hrel
    cases hrel
  | some t' =>
    rw [hfound] at hrel
    cases hrel with
    | some hsame => exact ⟨t', rfl, hsame⟩

theorem SameEntries.lookup_eq_none {key : String} (h : SameEntries entries' entries)
    (hkeys : (entries.map Prod.fst).Nodup) (hlookup : entries.lookup key = none) :
    entries'.lookup key = none := by
  have hrel := h.rel_lookup hkeys key
  rw [hlookup] at hrel
  cases hfound : entries'.lookup key with
  | none => rfl
  | some t' =>
    rw [hfound] at hrel
    cases hrel

/-! ## Reading what was written -/

section Decodes

variable {α : Type} {read : Tree → Option α} {encode : α → Tree}

/-- What was written as a tree is read back, in whichever order the entries stand. -/
def Decodes (read : Tree → Option α) (encode : α → Tree) : Prop :=
  ∀ a t, t.Same (encode a) → read t = some a

theorem decodes_text : Decodes text? .string := by
  intro s t h
  rw [same_string_iff.mp h]
  rfl

theorem natural?_natural {n bound : Nat} (h : n < bound) : (natural n).natural? bound = some n := by
  have hrange : (0 : Int) ≤ n ∧ (n : Int) < bound := ⟨Int.natCast_nonneg n, Int.ofNat_lt.mpr h⟩
  rw [natural, natural?, if_pos hrange, Int.toNat_natCast]

theorem decodes_u32 : Decodes u32? fun n ↦ .natural n.toNat := by
  intro n t h
  rw [same_natural_iff.mp h, u32?, natural?_natural n.toNat_lt, Option.map_some, UInt32.ofNat_toNat]

theorem decodes_u64 : Decodes u64? fun n ↦ .natural n.toNat := by
  intro n t h
  rw [same_natural_iff.mp h, u64?, natural?_natural n.toNat_lt, Option.map_some, UInt64.ofNat_toNat]

theorem Decodes.listOf (h : Decodes read encode) :
    Decodes (listOf? read) fun l ↦ .list (l.map encode) := by
  intro l t ht
  cases ht with
  | @list _ items hitems =>
    rw [listOf?]
    induction l generalizing items with
    | nil =>
      cases hitems
      rfl
    | cons a l ih =>
      cases hitems with
      | cons hfirst hrest =>
        rw [List.mapM_cons, h a _ hfirst, ih hrest]
        rfl

/-- Entries that are read one by one may stand in another order. -/
theorem Decodes.exists_perm (h : Decodes read encode) {l : List (String × α)}
    (hsame : SameEntries entries' (l.map fun e ↦ (e.1, encode e.2))) :
    ∃ l', entries'.mapM (fun e ↦ (read e.2).map fun a ↦ (e.1, a)) = some l' ∧ l'.Perm l := by
  induction l generalizing entries' with
  | nil =>
    cases hsame
    exact ⟨[], rfl, .nil⟩
  | cons e l ih =>
    cases hsame with
    | @cons _ _ t' front back _ ht hrest =>
      obtain ⟨l', hl', hperm⟩ := ih hrest
      rw [List.mapM_append] at hl'
      cases hfront : front.mapM (fun e ↦ (read e.2).map fun a ↦ (e.1, a)) with
      | none => simp [hfront] at hl'
      | some before =>
        cases hback : back.mapM (fun e ↦ (read e.2).map fun a ↦ (e.1, a)) with
        | none => simp [hfront, hback] at hl'
        | some behind =>
          have hjoin : before ++ behind = l' := by simpa [hfront, hback] using hl'
          refine ⟨before ++ e :: behind, ?_, ?_⟩
          · rw [List.mapM_append, List.mapM_cons, hfront, hback, h e.2 t' ht]
            rfl
          · exact List.perm_middle.trans (.cons e (hjoin ▸ hperm))

/-- A field that must be there. -/
theorem Decodes.bind_lookup (h : Decodes read encode) (key : String) {a : α}
    (hsame : SameEntries entries' entries) (hkeys : (entries.map Prod.fst).Nodup)
    (hlookup : entries.lookup key = some (encode a)) :
    (entries'.lookup key).bind read = some a := by
  obtain ⟨t, hfound, ht⟩ := hsame.exists_lookup_eq hkeys hlookup
  rw [hfound, Option.bind_some, h a t ht]

/-- A field that may be left out where it has the value that stands for its absence. -/
theorem Decodes.optional?_eq (h : Decodes read encode) (key : String) {a : α} (missing : α)
    (hsame : SameEntries entries' entries) (hkeys : (entries.map Prod.fst).Nodup)
    (hlookup : entries.lookup key = some (encode a) ∨ entries.lookup key = none ∧ a = missing) :
    optional? read missing (entries'.lookup key) = some a := by
  rcases hlookup with hlookup | ⟨hlookup, rfl⟩
  · obtain ⟨t, hfound, ht⟩ := hsame.exists_lookup_eq hkeys hlookup
    rw [hfound]
    exact h a t ht
  · rw [hsame.lookup_eq_none hkeys hlookup]
    rfl

/-- A field that is left out where there is nothing to be told. -/
theorem Decodes.optional?_map_some (h : Decodes read encode) (key : String) {a : Option α}
    (hsame : SameEntries entries' entries) (hkeys : (entries.map Prod.fst).Nodup)
    (hlookup : entries.lookup key = a.map encode) :
    optional? (fun t ↦ (read t).map some) none (entries'.lookup key) = some a := by
  cases a with
  | none =>
    rw [hsame.lookup_eq_none hkeys hlookup]
    rfl
  | some a =>
    obtain ⟨t, hfound, ht⟩ := hsame.exists_lookup_eq hkeys hlookup
    rw [hfound, optional?, h a t ht, Option.map_some]

variable {β : Type} {a : α}

/-! A record is read field by field. -/

theorem record?_bind (entries : List (String × Tree)) (names : List String)
    (k : (String → Option Tree) → Option β) :
    ((table entries).record? names >>= k) = k fun name ↦ entries.lookup name := rfl

theorem field_bind {field : Option Tree} (h : field.bind read = some a) (k : α → Option β) :
    (field >>= fun t ↦ read t >>= k) = k a := by
  change (field.bind fun t ↦ (read t).bind k) = k a
  rw [← Option.bind_assoc, h, Option.bind_some]

theorem optional_bind {field : Option α} (h : field = some a) (k : α → Option β) :
    (field >>= k) = k a := by
  rw [h]
  rfl

end Decodes

/-! ## Documents -/

/-- This reader finds the tree in the text, up to the order of entries. -/
def IsFoundIn (t : Tree) (parse : String → Option Tree) (text : String) : Prop :=
  ∃ t', parse text = some t' ∧ t'.Same t

theorem Decodes.bind_of_isFoundIn {α : Type} {read : Tree → Option α} {encode : α → Tree} {a : α}
    {parse : String → Option Tree} {text : String} (h : Decodes read encode)
    (hfound : (encode a).IsFoundIn parse text) : (parse text).bind read = some a := by
  obtain ⟨t, hparse, hsame⟩ := hfound
  rw [hparse, Option.bind_some, h a t hsame]

end Tree

/-- What the format writes for this tree it reads as the same tree, up to the order of entries. -/
def DocumentFormat.Finds (format : DocumentFormat) (t : Tree) : Prop :=
  ∀ text, format.write? t = some text → t.IsFoundIn format.read? text

end Dataflow
