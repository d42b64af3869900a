import Dataflow.Proofs.Engine.Fields
import Dataflow.Proofs.Machine.Operation

/-!
# Rows that are cut short

A row of bytes may end anywhere, and a reader may try anything on it. Whatever it has tried before, it stands
inside the row, and a field that is read lies between its old place and its new one. A read that fails leaves
the reader where it was, except in one case: of a string whose length is there but whose bytes are not, the
length has been read.
-/

namespace Dataflow.Blob.Reader

variable {r r' : Reader} {n : Nat} {f : Field} {kind : FieldKind}

/-! ## Reads that fail -/

theorem take_eq_none_iff : r.take n = (none, r') ↔ r.blob.length < r.position + n ∧ r' = r := by
  unfold take
  split
  · rename_i hn
    simp [Nat.not_lt.mpr hn]
  · rename_i hn
    simp [Nat.not_le.mp hn, eq_comm]

theorem word_eq_none_iff {width : Nat} :
    r.word width = (none, r') ↔ r.blob.length < r.position + width ∧ r' = r := by
  rw [← take_eq_none_iff]
  rcases htake : r.take width with ⟨_ | b, r''⟩ <;> simp [word, htake]

/-- A field that is one word is not read where the row ends inside it. -/
theorem eq_of_map_word_eq_none {width : Nat} {mk : Nat → Field}
    (h : ((r.word width).1.map mk, (r.word width).2) = (none, r')) : r' = r := by
  rcases hword : r.word width with ⟨_ | n, r''⟩
  · rw [hword] at h
    cases h
    exact (word_eq_none_iff.mp hword).2
  · rw [hword] at h
    cases h

/-- Where no string can be read, its length is read if there are bytes for that. -/
theorem eq_of_read_bytes_eq_none (hr : r.position ≤ r.blob.length) (h : r.read .bytes = (none, r')) :
    r' = if 4 ≤ r.remaining then r.advance 4 else r := by
  rcases hword : r.word 4 with ⟨_ | length, r''⟩
  · simp only [read, hword, Prod.mk.injEq, true_and] at h
    obtain ⟨hshort, rfl⟩ := word_eq_none_iff.mp hword
    have hremaining : ¬ 4 ≤ r''.remaining := by
      rw [remaining]
      omega
    rw [if_neg hremaining, h]
  · simp only [read, hword, Prod.mk.injEq, Option.map_eq_none_iff] at h
    obtain ⟨-, hnext, rfl⟩ := (word_eq_some_iff hr).mp hword
    have hremaining := hnext.length_le
    rw [length_ofWord] at hremaining
    rw [if_pos hremaining]
    exact (take_eq_none_iff.mp (Prod.ext h.1 h.2)).2

theorem eq_of_read_eq_none (hr : r.position ≤ r.blob.length) (h : r.read kind = (none, r')) :
    r' = if kind = .bytes ∧ 4 ≤ r.remaining then r.advance 4 else r := by
  cases kind with
  | bytes => simpa using eq_of_read_bytes_eq_none hr h
  | _ => exact eq_of_map_word_eq_none h

/-! ## Readers that are reached -/

/-- The reader after reads of these kinds, whether they fail or not. -/
def after (r : Reader) (kinds : List FieldKind) : Reader := kinds.foldl (fun r kind ↦ (r.read kind).2) r

/-- The reader stands inside the row `b`. -/
structure Within (b : Blob) (r : Reader) : Prop where
  blob : r.blob = b
  position : r.position ≤ b.length

variable {b : Blob}

theorem Within.advance (h : r.Within b) {c : Blob} (hc : r.Next c) : (r.advance c.length).Within b := by
  obtain ⟨rfl, hr⟩ := h
  exact ⟨rfl, hc.position_le hr⟩

/-- No read leads out of the row. -/
theorem Within.read (h : r.Within b) (kind : FieldKind) : (r.read kind).2.Within b := by
  have hr : r.position ≤ r.blob.length := h.blob ▸ h.position
  rcases hread : r.read kind with ⟨_ | f, r'⟩
  · obtain rfl := eq_of_read_eq_none hr hread
    split
    · rename_i hlength
      have hremaining := hlength.2
      rw [remaining] at hremaining
      refine ⟨h.blob, ?_⟩
      rw [Reader.advance, ← h.blob]
      dsimp only
      omega
    · exact h
  · obtain rfl := kind_of_read hread
    obtain ⟨-, hnext, rfl⟩ := (read_kind_eq_some_iff hr).mp hread
    exact h.advance hnext

theorem Within.after (h : r.Within b) (kinds : List FieldKind) : (r.after kinds).Within b := by
  induction kinds generalizing r with
  | nil => exact h
  | cons kind kinds ih => exact ih (h.read kind)

/-! ## Reads in words -/

/-- The bytes from one index up to another, if both lie in the row. -/
def between? (b : Blob) (first last : Nat) : Option Blob :=
  if first ≤ last ∧ last ≤ b.length then some ((b.drop first).take (last - first)) else none

/-- Takes `n` bytes as a machine does: the place where they end must fit in a word, and what stands there must
be of the wanted length. -/
def takeInWords (r : Reader) (n : Nat) : Option Blob × Reader :=
  match Word.checked (r.position + n) with
  | none => (none, r)
  | some last =>
    match between? r.blob r.position last with
    | none => (none, r)
    | some chunk => (if chunk.length = n then some chunk else none, { r with position := last })

/-- Reads one field, where `take` takes the bytes. -/
def readBy (take : Reader → Nat → Option Blob × Reader) (r : Reader) : FieldKind → Option Field × Reader :=
  let word (width : Nat) (mk : Nat → Field) : Option Field × Reader :=
    let (bytes, r) := take r width
    (bytes.map (mk ∘ toWord), r)
  fun
  | .u8 => word 1 (.u8 ∘ UInt8.ofNat)
  | .u16 => word 2 (.u16 ∘ UInt16.ofNat)
  | .u32 => word 4 (.u32 ∘ UInt32.ofNat)
  | .u64 => word 8 (.u64 ∘ UInt64.ofNat)
  | .i32 => word 4 (.i32 ∘ UInt32.toInt32 ∘ UInt32.ofNat)
  | .i64 => word 8 (.i64 ∘ UInt64.toInt64 ∘ UInt64.ofNat)
  | .f32 => word 4 (.f32 ∘ UInt32.ofNat)
  | .f64 => word 8 (.f64 ∘ UInt64.ofNat)
  | .bytes =>
    match take r 4 with
    | (none, r) => (none, r)
    | (some length, r) =>
      let (bytes, r) := take r (toWord length)
      (bytes.map .bytes, r)

theorem readBy_take (r : Reader) (kind : FieldKind) : r.readBy take kind = r.read kind := by
  cases kind with
  | bytes =>
    rcases htake : r.take 4 with ⟨_ | length, r''⟩ <;> simp only [readBy, read, word, htake] <;> rfl
  | _ => simp [readBy, read, word]

/-- No row is so long that a place in it does not fit in a word. -/
theorem takeInWords_eq (h : r.blob.length < Word.modulus) (n : Nat) : r.takeInWords n = r.take n := by
  unfold takeInWords take Word.checked between?
  by_cases hn : r.position + n ≤ r.blob.length
  · have hlength : ((r.blob.drop r.position).take n).length = n := by
      rw [List.length_take, List.length_drop]
      omega
    rw [if_pos (Nat.lt_of_le_of_lt hn h), if_pos hn]
    simp only [Nat.le_add_right, hn, and_self, if_true, Nat.add_sub_cancel_left, hlength]
  · rw [if_neg hn]
    split
    · rfl
    · rename_i last hlast
      obtain rfl : r.position + n = last := by simpa using (Option.ite_none_right_eq_some.mp hlast).2
      rw [if_neg fun hfits ↦ hn hfits.2]

theorem Within.readBy_takeInWords (h : r.Within b) (hb : b.length < Word.modulus) (kind : FieldKind) :
    r.readBy takeInWords kind = r.read kind := by
  have htake {r : Reader} (h : r.blob = b) (n : Nat) : r.takeInWords n = r.take n :=
    takeInWords_eq (h ▸ hb) n
  rw [← readBy_take]
  cases kind with
  | bytes =>
    have hlength : (r.take 4).2.blob = b := by
      unfold take
      split <;> exact h.blob
    simp only [readBy, htake h.blob]
    rcases htake4 : r.take 4 with ⟨_ | length, r''⟩
    · rfl
    · rw [htake4] at hlength
      simp only [htake hlength]
  | _ => simp only [readBy, htake h.blob]

/-! ## Single reads -/

/-- Wherever a reader has come to by earlier reads, it stands inside its row. A read that succeeds finds a
field of its kind there and goes on by the length of its bytes. Otherwise there is no such field, and the
reader stays, except that it goes past the length of a string which is cut short itself. A machine computes
the same, and how many bytes remain. -/
theorem read_consumes (hb : b.length < Word.modulus) (earlier : List FieldKind) (kind : FieldKind) :
    let r := (reader b).after earlier
    r.blob = b ∧ r.position ≤ b.length ∧ Machine.difference b.length r.position = .ok r.remaining ∧
      r.readBy takeInWords kind = r.read kind ∧
      match r.read kind with
      | (some f, r') => f.kind = kind ∧ r.Next f.encode ∧ r' = r.advance f.encode.length
      | (none, r') => (∀ f : Field, f.kind = kind → f.Fits → ¬ r.Next f.encode) ∧
        r' = if kind = .bytes ∧ 4 ≤ r.remaining then r.advance 4 else r := by
  intro r
  have hstart : (reader b).Within b := ⟨rfl, Nat.zero_le _⟩
  have hwithin : r.Within b := hstart.after earlier
  have hr : r.position ≤ r.blob.length := hwithin.blob ▸ hwithin.position
  refine ⟨hwithin.blob, hwithin.position, ?_, hwithin.readBy_takeInWords hb kind, ?_⟩
  · rw [Machine.difference_of_le hwithin.position, remaining, hwithin.blob]
  · rcases hread : r.read kind with ⟨_ | f, r'⟩
    · refine ⟨fun f hkind hfits hnext ↦ ?_, eq_of_read_eq_none hr hread⟩
      have hsome := (read_kind_eq_some_iff hr).mpr ⟨hfits, hnext, rfl⟩
      rw [hkind, hread] at hsome
      cases hsome
    · obtain rfl := kind_of_read hread
      obtain ⟨-, hnext, hr'⟩ := (read_kind_eq_some_iff hr).mp hread
      exact ⟨rfl, hnext, hr'⟩

/-- Behind a number of one byte, a string of ten bytes of which there is one. -/
def cutString : Blob := [3, 10, 0, 0, 0, 7]

/-- A word of eight bytes is refused, and then the string; the next number is read from its only byte. -/
theorem read_cutString :
    ((reader cutString).after [.u8, .u64]).position = 1 ∧
      ((reader cutString).after [.u8, .u64]).read .bytes = (none, ⟨cutString, 5⟩) ∧
      ((reader cutString).after [.u8, .u64]).readBy takeInWords .bytes = (none, ⟨cutString, 5⟩) ∧
      ((reader cutString).after [.u8, .u64, .bytes]).read .u8 = (some (.u8 7), ⟨cutString, 6⟩) := by
  have hlength : cutString.length < Word.modulus := by decide
  refine ⟨rfl, rfl, ?_, rfl⟩
  exact (read_consumes hlength [.u8, .u64] .bytes).2.2.2.1.trans rfl

/-- A read that fails can have gone on: the length of a string is gone when its bytes are not there. -/
theorem failing_read_consumes :
    ¬ ∀ (b : Blob) (earlier : List FieldKind) (kind : FieldKind),
      let r := (reader b).after earlier
      (r.read kind).1 = none → (r.read kind).2 = r := by
  intro h
  exact absurd (h [10, 0, 0, 0, 7] [] .bytes rfl) (by decide)

end Dataflow.Blob.Reader
