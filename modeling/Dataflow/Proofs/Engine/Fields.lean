import Dataflow.Engine.Blob
import Mathlib.Algebra.Group.Nat.Defs
import Mathlib.Data.List.Basic

/-!
# Fields and their bytes

Reading succeeds exactly where the bytes that come next are those of a field of the wanted kind, and the
field read is the one they are the bytes of. So a row of fields is read back from its bytes whatever
follows them, and what has been read, written again, is the part of the row that is behind the reader.
-/

namespace Dataflow.Blob

/-! ## Words -/

theorem toWord_lt (b : Blob) : toWord b < 256 ^ b.length := by
  induction b with
  | nil => exact Nat.one_pos
  | cons first rest ih =>
    have hfirst := first.toNat_lt
    rw [toWord, List.length_cons, Nat.pow_succ']
    omega

/-- A row of bytes is the word of its own number. -/
theorem ofWord_toWord (b : Blob) : ofWord b.length (toWord b) = b := by
  induction b with
  | nil => rfl
  | cons first rest ih =>
    have hfirst := first.toNat_lt
    have hlow : UInt8.ofNat (first.toNat + 256 * toWord rest) = first := by
      rw [UInt8.ofNat_eq_iff_mod_eq_toNat]
      omega
    have hhigh : (first.toNat + 256 * toWord rest) / 256 = toWord rest := by omega
    rw [List.length_cons, toWord, ofWord, hlow, hhigh, ih]

theorem toWord_ofWord_of_lt {width n : Nat} (h : n < 256 ^ width) : toWord (ofWord width n) = n :=
  (toWord_ofWord width n).trans (Nat.mod_eq_of_lt h)

/-- A signed number is the unsigned one of the same bits. -/
theorem toInt32_eq_iff {n : UInt32} {v : Int32} : n.toInt32 = v ↔ n = v.toUInt32 :=
  ⟨fun h ↦ h ▸ (UInt32.toUInt32_toInt32 n).symm, fun h ↦ h ▸ Int32.toInt32_toUInt32 v⟩

theorem toInt64_eq_iff {n : UInt64} {v : Int64} : n.toInt64 = v ↔ n = v.toUInt64 :=
  ⟨fun h ↦ h ▸ (UInt64.toUInt64_toInt64 n).symm, fun h ↦ h ▸ Int64.toInt64_toUInt64 v⟩

/-! ## What comes next -/

namespace Reader

variable {r r' : Reader} {c c' : Blob}

/-- The bytes `c` stand in front of the reader. -/
def Next (r : Reader) (c : Blob) : Prop := c <+: r.blob.drop r.position

/-- The reader `n` bytes further on. -/
def advance (r : Reader) (n : Nat) : Reader := { r with position := r.position + n }

theorem advance_advance (r : Reader) (n m : Nat) : (r.advance n).advance m = r.advance (n + m) := by
  simp [advance, Nat.add_assoc]

theorem Next.length_le (h : r.Next c) : c.length ≤ r.remaining := by
  simpa [remaining] using List.IsPrefix.length_le h

theorem Next.position_le (h : r.Next c) (hr : r.position ≤ r.blob.length) :
    r.position + c.length ≤ r.blob.length := by
  have hle := h.length_le
  simp only [remaining] at hle
  omega

theorem next_append : r.Next (c ++ c') ↔ r.Next c ∧ (r.advance c.length).Next c' := by
  simp only [Next, advance, ← List.drop_drop]
  constructor
  · rintro ⟨rest, hrest⟩
    rw [← hrest, List.append_assoc, List.drop_left]
    exact ⟨List.prefix_append _ _, List.prefix_append _ _⟩
  · rintro ⟨⟨rest, hrest⟩, h⟩
    rw [← hrest, List.drop_left] at h
    rw [← hrest, List.prefix_append_right_inj]
    exact h

theorem take_eq_some_iff {n : Nat} (hr : r.position ≤ r.blob.length) :
    r.take n = (some c, r') ↔ c.length = n ∧ r.Next c ∧ r' = r.advance n := by
  unfold take
  split
  · rename_i hn
    simp only [Prod.mk.injEq, Option.some.injEq]
    have hlength : ((r.blob.drop r.position).take n).length = n := by
      rw [List.length_take, List.length_drop]
      omega
    constructor
    · rintro ⟨rfl, rfl⟩
      exact ⟨hlength, List.take_prefix n _, rfl⟩
    · rintro ⟨rfl, hnext, rfl⟩
      exact ⟨(List.prefix_iff_eq_take.mp hnext).symm, rfl⟩
  · rename_i hn
    constructor
    · exact nofun
    · rintro ⟨rfl, hnext, -⟩
      exact absurd (hnext.position_le hr) hn

/-- The number read is the one whose bytes come next. -/
theorem word_eq_some_iff {width n : Nat} (hr : r.position ≤ r.blob.length) :
    r.word width = (some n, r') ↔
      n < 256 ^ width ∧ r.Next (ofWord width n) ∧ r' = r.advance width := by
  have hword : r.word width = (some n, r') ↔
      ∃ b, r.take width = (some b, r') ∧ toWord b = n := by
    rcases htake : r.take width with ⟨_ | b, r''⟩
    · simp [word, htake]
    · simp [word, htake, and_comm]
  rw [hword]
  constructor
  · rintro ⟨b, htake, rfl⟩
    obtain ⟨rfl, hnext, hr'⟩ := (take_eq_some_iff hr).mp htake
    exact ⟨toWord_lt b, (ofWord_toWord b).symm ▸ hnext, hr'⟩
  · rintro ⟨hn, hnext, hr'⟩
    exact ⟨ofWord width n, (take_eq_some_iff hr).mpr ⟨length_ofWord width n, hnext, hr'⟩,
      toWord_ofWord_of_lt hn⟩

end Reader

/-! ## Single fields -/

namespace Field

/-- The length of a string of bytes has four bytes of its own. -/
def Fits : Field → Prop
  | bytes v => v.length < 4294967296
  | _ => True

end Field

namespace Reader

variable {r r' : Reader} {f : Field}

theorem kind_of_read {kind : FieldKind} (h : r.read kind = (some f, r')) : f.kind = kind := by
  have hmap {α : Type} {x : Option α} {mk : α → Field} (hx : x.map mk = some f)
      (hmk : ∀ a, (mk a).kind = kind) : f.kind = kind := by
    obtain ⟨a, -, rfl⟩ := Option.map_eq_some_iff.mp hx
    exact hmk a
  cases kind with
  | bytes =>
    simp only [read] at h
    split at h
    · cases h
    · exact hmap (congrArg Prod.fst h) fun _ ↦ rfl
  | _ => exact hmap (congrArg Prod.fst h) fun _ ↦ rfl

/-- A field that is one word is read where the bytes of this word come next. -/
theorem map_word_eq_some_iff {width value : Nat} (hr : r.position ≤ r.blob.length)
    {mk : Nat → Field} (hvalue : value < 256 ^ width)
    (hmk : ∀ n < 256 ^ width, mk n = f ↔ n = value) :
    ((r.word width).1.map mk, (r.word width).2) = (some f, r') ↔
      True ∧ r.Next (ofWord width value) ∧ r' = r.advance (ofWord width value).length := by
  rw [Prod.mk.injEq, Option.map_eq_some_iff, true_and, length_ofWord]
  constructor
  · rintro ⟨⟨n, hn, hfield⟩, hr'⟩
    obtain ⟨hlt, hnext, heq⟩ := (word_eq_some_iff hr).mp (Prod.ext hn hr')
    exact ⟨(hmk n hlt).mp hfield ▸ hnext, heq⟩
  · rintro ⟨hnext, heq⟩
    have hword := (word_eq_some_iff hr).mpr ⟨hvalue, hnext, heq⟩
    exact ⟨⟨value, congrArg Prod.fst hword, (hmk value hvalue).mpr rfl⟩, congrArg Prod.snd hword⟩

/-- A string is read where its length and then its bytes come next. -/
theorem read_bytes_eq_some_iff {v : Blob} (hr : r.position ≤ r.blob.length) :
    r.read .bytes = (some (.bytes v), r') ↔ v.length < 4294967296 ∧
      r.Next (ofWord 4 v.length ++ v) ∧ r' = r.advance (ofWord 4 v.length ++ v).length := by
  rw [next_append, List.length_append, length_ofWord, ← advance_advance]
  constructor
  · intro h
    rcases hword : r.word 4 with ⟨_ | length, r''⟩
    · simp [read, hword] at h
    simp only [read, hword, Prod.mk.injEq, Option.map_eq_some_iff, Field.bytes.injEq,
      exists_eq_right] at h
    obtain ⟨hlt, hnext, rfl⟩ := (word_eq_some_iff hr).mp hword
    have hle := hnext.position_le hr
    rw [length_ofWord] at hle
    obtain ⟨rfl, hbytes, hr'⟩ := (take_eq_some_iff hle).mp (Prod.ext h.1 h.2)
    exact ⟨hlt, ⟨hnext, hbytes⟩, hr'⟩
  · rintro ⟨hlt, ⟨hnext, hbytes⟩, hr'⟩
    have hle := hnext.position_le hr
    rw [length_ofWord] at hle
    have hword := (word_eq_some_iff hr).mpr ⟨hlt, hnext, rfl⟩
    have htake := (take_eq_some_iff hle).mpr ⟨rfl, hbytes, hr'⟩
    simp [read, hword, htake]

/-- A field is read where its bytes come next. -/
theorem read_kind_eq_some_iff (hr : r.position ≤ r.blob.length) :
    r.read f.kind = (some f, r') ↔ f.Fits ∧ r.Next f.encode ∧ r' = r.advance f.encode.length := by
  cases f with
  | u8 v =>
    have hencode : (Field.u8 v).encode = ofWord 1 v.toNat := by simp [Field.encode, ofWord]
    rw [hencode]
    exact map_word_eq_some_iff hr v.toNat_lt fun n hn ↦ by
      have hlt : n < 256 := hn
      simp [UInt8.ofNat_eq_iff_mod_eq_toNat, Nat.mod_eq_of_lt hlt]
  | u16 v =>
    exact map_word_eq_some_iff hr v.toNat_lt fun n hn ↦ by
      have hlt : n < 65536 := hn
      simp [UInt16.ofNat_eq_iff_mod_eq_toNat, Nat.mod_eq_of_lt hlt]
  | u32 v =>
    exact map_word_eq_some_iff hr v.toNat_lt fun n hn ↦ by
      have hlt : n < 4294967296 := hn
      simp [UInt32.ofNat_eq_iff_mod_eq_toNat, Nat.mod_eq_of_lt hlt]
  | u64 v =>
    exact map_word_eq_some_iff hr v.toNat_lt fun n hn ↦ by
      have hlt : n < 18446744073709551616 := hn
      simp [UInt64.ofNat_eq_iff_mod_eq_toNat, Nat.mod_eq_of_lt hlt]
  | i32 v =>
    exact map_word_eq_some_iff hr v.toUInt32.toNat_lt fun n hn ↦ by
      have hlt : n < 4294967296 := hn
      rw [Function.comp_apply, Field.i32.injEq, Function.comp_apply, toInt32_eq_iff,
        UInt32.ofNat_eq_iff_mod_eq_toNat]
      simp [Nat.mod_eq_of_lt hlt]
  | i64 v =>
    exact map_word_eq_some_iff hr v.toUInt64.toNat_lt fun n hn ↦ by
      have hlt : n < 18446744073709551616 := hn
      rw [Function.comp_apply, Field.i64.injEq, Function.comp_apply, toInt64_eq_iff,
        UInt64.ofNat_eq_iff_mod_eq_toNat]
      simp [Nat.mod_eq_of_lt hlt]
  | f32 v =>
    exact map_word_eq_some_iff hr v.toNat_lt fun n hn ↦ by
      have hlt : n < 4294967296 := hn
      simp [UInt32.ofNat_eq_iff_mod_eq_toNat, Nat.mod_eq_of_lt hlt]
  | f64 v =>
    exact map_word_eq_some_iff hr v.toNat_lt fun n hn ↦ by
      have hlt : n < 18446744073709551616 := hn
      simp [UInt64.ofNat_eq_iff_mod_eq_toNat, Nat.mod_eq_of_lt hlt]
  | bytes v => exact read_bytes_eq_some_iff hr

end Reader

/-! ## Rows of fields -/

theorem ofFields_cons (f : Field) (fields : List Field) :
    ofFields (f :: fields) = f.encode ++ ofFields fields := List.flatMap_cons

namespace Reader

variable {r r' : Reader} {fields : List Field}

/-- Reads fields of these kinds one after another. -/
def readAll (r : Reader) : List FieldKind → Option (List Field) × Reader
  | [] => (some [], r)
  | kind :: kinds =>
    match r.read kind with
    | (none, r) => (none, r)
    | (some f, r) =>
      let (fields, r) := r.readAll kinds
      (fields.map (f :: ·), r)

theorem readAll_cons_eq_some_iff {kind : FieldKind} {kinds : List FieldKind} :
    r.readAll (kind :: kinds) = (some fields, r') ↔ ∃ f rest s, fields = f :: rest ∧
      r.read kind = (some f, s) ∧ s.readAll kinds = (some rest, r') := by
  rw [readAll]
  rcases hread : r.read kind with ⟨_ | f, s⟩
  · simp
  · rcases hrest : s.readAll kinds with ⟨_ | rest, t⟩
    · simp [hrest]
    · simp [hrest, eq_comm, and_assoc]

/-- Fields of the wanted kinds are read where their bytes come next. -/
theorem readAll_eq_some_iff {kinds : List FieldKind} (hr : r.position ≤ r.blob.length) :
    r.readAll kinds = (some fields, r') ↔ fields.map Field.kind = kinds ∧ (∀ f ∈ fields, f.Fits) ∧
      r.Next (ofFields fields) ∧ r' = r.advance (ofFields fields).length := by
  induction kinds generalizing r fields with
  | nil =>
    constructor
    · rintro ⟨⟩
      exact ⟨rfl, by simp, List.nil_prefix, rfl⟩
    · rintro ⟨hkinds, -, -, rfl⟩
      obtain rfl := List.map_eq_nil_iff.mp hkinds
      rfl
  | cons kind kinds ih =>
    rw [readAll_cons_eq_some_iff]
    constructor
    · rintro ⟨f, rest, s, rfl, hread, hrest⟩
      obtain rfl := kind_of_read hread
      obtain ⟨hfits, hnext, rfl⟩ := (read_kind_eq_some_iff hr).mp hread
      obtain ⟨rfl, hall, hnexts, hr'⟩ := (ih (hnext.position_le hr)).mp hrest
      rw [ofFields_cons, next_append, List.length_append, ← advance_advance]
      exact ⟨rfl, List.forall_mem_cons.mpr ⟨hfits, hall⟩, ⟨hnext, hnexts⟩, hr'⟩
    · rintro ⟨hkinds, hall, hnext, hr'⟩
      obtain ⟨f, rest, rfl, rfl, rfl⟩ := List.map_eq_cons_iff.mp hkinds
      obtain ⟨hfits, hall⟩ := List.forall_mem_cons.mp hall
      rw [ofFields_cons, next_append] at hnext
      rw [ofFields_cons, List.length_append, ← advance_advance] at hr'
      exact ⟨f, rest, _, rfl, (read_kind_eq_some_iff hr).mpr ⟨hfits, hnext.1, rfl⟩,
        (ih (hnext.1.position_le hr)).mpr ⟨rfl, hall, hnext.2, hr'⟩⟩

/-- A reader in front of a row of fields reads them all, and stands in front of what follows. A reader
that has read fields from the beginning has their bytes behind it. -/
theorem readAll_round_trip :
    (∀ (fields : List Field) (rest : Blob), (∀ f ∈ fields, f.Fits) →
      let r := reader (ofFields fields ++ rest)
      r.readAll (fields.map Field.kind) = (some fields, r.advance (ofFields fields).length) ∧
        (r.advance (ofFields fields).length).remaining = rest.length) ∧
    ∀ (blob : Blob) (kinds : List FieldKind) (fields : List Field) (r : Reader),
      (reader blob).readAll kinds = (some fields, r) →
        fields.map Field.kind = kinds ∧ r.blob = blob ∧ r.position ≤ blob.length ∧
          ofFields fields = blob.take r.position := by
  refine ⟨fun fields rest hfits ↦ ⟨?_, ?_⟩, fun blob kinds fields r h ↦ ?_⟩
  · exact (readAll_eq_some_iff (Nat.zero_le _)).mpr ⟨rfl, hfits, List.prefix_append _ _, rfl⟩
  · simp [remaining, advance, reader]
  · have hstart : (reader blob).position ≤ (reader blob).blob.length := Nat.zero_le _
    obtain ⟨hkinds, -, hnext, rfl⟩ := (readAll_eq_some_iff hstart).mp h
    have hposition : ((reader blob).advance (ofFields fields).length).position =
        (ofFields fields).length := Nat.zero_add _
    rw [hposition]
    refine ⟨hkinds, rfl, ?_, List.prefix_iff_eq_take.mp hnext⟩
    simpa [reader] using hnext.position_le hstart

/-- Fields of several widths, followed by one more byte. -/
def sampleFields : List Field :=
  [.u8 171, .i32 (-12), .u64 18446744073709551614, .f64 13822111718613647360,
    .bytes [116, 97, 112], .u16 513]

theorem readAll_sampleFields :
    (∀ f ∈ sampleFields, f.Fits) ∧
      (reader (ofFields sampleFields ++ [7])).readAll (sampleFields.map Field.kind) =
        (some sampleFields, ⟨ofFields sampleFields ++ [7], 30⟩) ∧
      ofFields sampleFields = (ofFields sampleFields ++ [7]).take 30 := by
  have hfits : ∀ f ∈ sampleFields, f.Fits := by simp [sampleFields, Field.Fits]
  have hread := (readAll_round_trip.1 sampleFields [7] hfits).1
  exact ⟨hfits, hread, (readAll_round_trip.2 _ _ _ _ hread).2.2.2⟩

end Reader

end Dataflow.Blob
