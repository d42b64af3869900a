/-!
# Parked state

Between two firings the state of a node can be kept as a row of bytes. Its fields are written one
after another, lowest byte first, each in a fixed number of bytes; a string of bytes comes after its
length. A reader goes through the row from the front and fails where the bytes run out.
-/

namespace Dataflow

abbrev Blob := List UInt8

namespace Blob

/-- `n` modulo `256 ^ width` in `width` bytes, lowest first. -/
def ofWord : (width : Nat) → Nat → Blob
  | 0, _ => []
  | width + 1, n => UInt8.ofNat n :: ofWord width (n / 256)

def toWord : Blob → Nat
  | [] => 0
  | b :: rest => b.toNat + 256 * toWord rest

@[simp]
theorem length_ofWord (width n : Nat) : (ofWord width n).length = width := by
  induction width generalizing n with
  | zero => rfl
  | succ width ih => simp [ofWord, ih]

theorem toWord_ofWord (width n : Nat) : toWord (ofWord width n) = n % Nat.pow 256 width := by
  induction width generalizing n with
  | zero => simp [ofWord, toWord, Nat.mod_one]
  | succ width ih => simp [ofWord, toWord, ih, Nat.pow_succ', Nat.mod_mul]

/-- One field with its value; for floating-point numbers that is the pattern of bits. -/
inductive Field where
  | u8 (value : UInt8)
  | u16 (value : UInt16)
  | u32 (value : UInt32)
  | u64 (value : UInt64)
  | i32 (value : Int32)
  | i64 (value : Int64)
  | f32 (bits : UInt32)
  | f64 (bits : UInt64)
  | bytes (value : Blob)
  deriving DecidableEq, Repr

inductive FieldKind where
  | u8
  | u16
  | u32
  | u64
  | i32
  | i64
  | f32
  | f64
  | bytes
  deriving DecidableEq, Repr

namespace Field

def kind : Field → FieldKind
  | u8 _ => .u8
  | u16 _ => .u16
  | u32 _ => .u32
  | u64 _ => .u64
  | i32 _ => .i32
  | i64 _ => .i64
  | f32 _ => .f32
  | f64 _ => .f64
  | bytes _ => .bytes

def encode : Field → Blob
  | u8 v => [v]
  | u16 v => ofWord 2 v.toNat
  | u32 v | f32 v => ofWord 4 v.toNat
  | u64 v | f64 v => ofWord 8 v.toNat
  | i32 v => ofWord 4 v.toUInt32.toNat
  | i64 v => ofWord 8 v.toUInt64.toNat
  | bytes v => ofWord 4 v.length ++ v

end Field

def ofFields (fields : List Field) : Blob := fields.flatMap Field.encode

structure Reader where
  blob : Blob
  position : Nat
  deriving DecidableEq, Repr

def reader (b : Blob) : Reader := ⟨b, 0⟩

namespace Reader

def remaining (r : Reader) : Nat := r.blob.length - r.position

/-- The next `n` bytes. The reader stays where it is if there are fewer. -/
def take (r : Reader) (n : Nat) : Option Blob × Reader :=
  if r.position + n ≤ r.blob.length then
    (some ((r.blob.drop r.position).take n), { r with position := r.position + n })
  else (none, r)

/-- The next `width` bytes as a number. -/
def word (r : Reader) (width : Nat) : Option Nat × Reader :=
  let (bytes, r) := r.take width
  (bytes.map toWord, r)

/-- Reads one field. The length of a string of bytes is a field of its own, which is behind the reader
also when the string itself turns out to be cut short. -/
def read (r : Reader) : FieldKind → Option Field × Reader
  | .u8 => let (n, r) := r.word 1; (n.map (.u8 ∘ UInt8.ofNat), r)
  | .u16 => let (n, r) := r.word 2; (n.map (.u16 ∘ UInt16.ofNat), r)
  | .u32 => let (n, r) := r.word 4; (n.map (.u32 ∘ UInt32.ofNat), r)
  | .u64 => let (n, r) := r.word 8; (n.map (.u64 ∘ UInt64.ofNat), r)
  | .i32 => let (n, r) := r.word 4; (n.map (.i32 ∘ UInt32.toInt32 ∘ UInt32.ofNat), r)
  | .i64 => let (n, r) := r.word 8; (n.map (.i64 ∘ UInt64.toInt64 ∘ UInt64.ofNat), r)
  | .f32 => let (n, r) := r.word 4; (n.map (.f32 ∘ UInt32.ofNat), r)
  | .f64 => let (n, r) := r.word 8; (n.map (.f64 ∘ UInt64.ofNat), r)
  | .bytes =>
    match r.word 4 with
    | (none, r) => (none, r)
    | (some length, r) =>
      let (bytes, r) := r.take length
      (bytes.map .bytes, r)

end Reader

end Blob

end Dataflow
