import Dataflow.Document.Toml.Section
import Dataflow.Proofs.Document.Tree

/-!
# Tables in tables

What is done at a path that begins with a key is done at the rest of the path in the table under this
key, and the other entries stay. So the lines of a table act on it alone, wherever it stands.
-/

namespace Dataflow.Toml

variable {key : String} {item item' : Item} {es : Entries}

/-! ## Entries -/

theorem put_of_lookup_eq_none (h : es.lookup key = none) :
    put key item es = es ++ [(key, item)] := by
  induction es with
  | nil => rfl
  | cons entry es ih =>
    rw [List.lookup_cons] at h
    split at h
    · cases h
    · rename_i hne
      have hkey : (entry.1 == key) = false := by
        rw [beq_eq_false_iff_ne] at hne ⊢
        exact hne.symm
      rw [put, if_neg (by simp [hkey]), ih h, List.cons_append]

theorem lookup_put (key : String) (item : Item) (es : Entries) :
    (put key item es).lookup key = some item := by
  induction es with
  | nil => simp [put]
  | cons entry es ih =>
    rw [put]
    split
    · rename_i hkey
      rw [List.lookup_cons, beq_iff_eq.mp hkey]
      simp
    · rename_i hkey
      have hne : (key == entry.1) = false := by
        rw [beq_eq_false_iff_ne]
        exact fun h ↦ hkey (beq_iff_eq.mpr h.symm)
      rw [List.lookup_cons, hne]
      exact ih

theorem put_put (key : String) (item item' : Item) (es : Entries) :
    put key item' (put key item es) = put key item' es := by
  induction es with
  | nil => simp [put]
  | cons entry es ih =>
    rw [put]
    split
    · rename_i hkey
      rw [put, put]
      simp [hkey]
    · rename_i hkey
      rw [put, put, if_neg hkey, if_neg hkey, ih]

/-- The entries of a table without tables of its own. -/
def values (entries : List (String × Tree)) : Entries :=
  entries.map fun entry ↦ (entry.1, .value entry.2)

theorem entriesToTrees_append (es es' : Entries) :
    entriesToTrees (es ++ es') = entriesToTrees es ++ entriesToTrees es' := by
  induction es with
  | nil => simp [entriesToTrees]
  | cons entry es ih => simp [entriesToTrees, ih]

theorem entriesToTrees_values (entries : List (String × Tree)) :
    entriesToTrees (values entries) = entries := by
  induction entries with
  | nil => simp [values, entriesToTrees]
  | cons entry entries ih =>
    simp only [values, List.map_cons, entriesToTrees, Item.toTree]
    exact congrArg (entry :: ·) ih

theorem tablesToTrees_eq (earlier : List Entries) (behind : List Tree) :
    tablesToTrees earlier behind =
      earlier.reverse.map (fun es ↦ .table (entriesToTrees es)) ++ behind := by
  induction earlier generalizing behind with
  | nil => simp [tablesToTrees]
  | cons es earlier ih => simp [tablesToTrees, ih]

/-- A value with a key of its own comes last. -/
theorem define_of_lookup_eq_none {t : Tree} (h : es.lookup key = none) :
    define [] key t es = some (es ++ [(key, .value t)]) := by
  simp [define, within, h, put_of_lookup_eq_none h]

theorem lookup_values {key : String} {entries : List (String × Tree)}
    (h : key ∉ entries.map Prod.fst) : (values entries).lookup key = none := by
  refine lookup_eq_none_of_not_mem ?_
  rw [values, List.map_map]
  exact h

theorem define_values {entry : String × Tree} {entries done : List (String × Tree)}
    (hkeys : ((done ++ entry :: entries).map Prod.fst).Nodup) :
    define [] entry.1 entry.2 (values done) = some (values (done ++ [entry])) := by
  rw [List.map_append, List.map_cons, List.nodup_middle, List.nodup_cons] at hkeys
  have hnew : entry.1 ∉ done.map Prod.fst := fun h ↦ hkeys.1 (List.mem_append_left _ h)
  rw [define_of_lookup_eq_none (lookup_values hnew)]
  simp [values]

/-! ## One table among others -/

/-- Changes at the end of a path that do not ask how the table there came about. -/
def alter (f : Entries → Option Entries) (path : List String) (es : Entries) : Option Entries :=
  within false (fun _ ↦ f) path .header es

theorem within_eq_alter (f : Entries → Option Entries) (path : List String) (origin : Origin)
    (es : Entries) : within false (fun _ ↦ f) path origin es = alter f path es := by
  cases path <;> simp [alter, within]

/-- The place of a table under a key, as what its entries make of the entries around it. -/
def Holds (key : String) (plug : Entries → Entries) : Prop :=
  ∀ f path es, alter f (key :: path) (plug es) = (alter f path es).map plug

theorem holds_table (key : String) (origin : Origin) (around : Entries) :
    Holds key fun es ↦ put key (.table origin es) around := by
  intro f path es
  simp only [alter, within, lookup_put, Bool.false_and, Bool.false_eq_true, if_false, put_put]
  rw [within_eq_alter]
  rfl

theorem holds_tables (key : String) (earlier : List Entries) (around : Entries) :
    Holds key fun es ↦ put key (.tables es earlier) around := by
  intro f path es
  simp only [alter, within, lookup_put, put_put]

/-- The first change of a table that is not there yet makes it on the way. -/
theorem alter_of_lookup_eq_none {around : Entries} (h : around.lookup key = none)
    (f : Entries → Option Entries) (path : List String) :
    alter f (key :: path) around =
      (alter f path []).map fun es ↦ put key (.table .passing es) around := by
  simp only [alter, within, h, Bool.false_eq_true, if_false]
  rw [within_eq_alter]
  rfl

end Dataflow.Toml
