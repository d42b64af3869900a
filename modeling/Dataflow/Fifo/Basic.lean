import Dataflow.Fifo.Error

/-!
# Bounded queues in a ring

A queue keeps its elements in a ring of cells of fixed size, from a read cursor on and round the end
of the storage. It starts with some initial tokens and goes back to them on `reset`. `contents` is the
list of its elements, oldest first.

Reading and writing come in two steps. A reservation moves the cursors and lends the cells out in at
most two runs: up to the end of the storage, and from its start. The cells of a reading are then read;
those of a writing still hold what was in them before, and are filled by `fill`.
-/

namespace Dataflow

structure Fifo (α : Type) where
  storage : Array α
  /-- The tokens that `reset` puts back. -/
  initial : List α
  read : Nat
  /-- The number of elements that can be read. -/
  size : Nat
  initial_le : initial.length ≤ storage.size
  read_lt : read < storage.size
  size_le : size ≤ storage.size

namespace Fifo

variable {α : Type}

def capacity (f : Fifo α) : Nat := f.storage.size

def delay (f : Fifo α) : Nat := f.initial.length

def free (f : Fifo α) : Nat := f.capacity - f.size

def willUnderflow (f : Fifo α) (n : Nat) : Bool := f.size < n

def willOverflow (f : Fifo α) (n : Nat) : Bool := f.free < n

/-- `n` cells from `start` on, with the first cell behind the last. -/
def ring (cells : List α) (start n : Nat) : List α := (cells.drop start ++ cells.take start).take n

/-- The elements that can be read, oldest first. -/
def contents (f : Fifo α) : List α := ring f.storage.toList f.read f.size

/-! ## Making a queue -/

theorem le_size_take {storage : List α} {capacity n : Nat} (hn : n ≤ capacity)
    (small : ¬ storage.length < capacity) : n ≤ (storage.take capacity).toArray.size := by
  rw [List.size_toArray, List.length_take, Nat.min_eq_left (Nat.not_lt.mp small)]
  exact hn

/-- A queue over the first `capacity` cells of `storage`, the first `delay` of which are its initial
tokens. -/
def ofStorage (storage : List α) (capacity delay : Nat) : Except FifoError (Fifo α) :=
  if zero : capacity = 0 then .error .zeroCapacity
  else if small : storage.length < capacity then
    .error (.storageTooSmall capacity storage.length)
  else if long : capacity < delay then .error (.delayExceedsCapacity delay capacity)
  else
    .ok
      { storage := (storage.take capacity).toArray
        initial := storage.take delay
        read := 0
        size := delay
        initial_le :=
          Nat.le_trans (List.length_take_le delay storage) (le_size_take (Nat.not_lt.mp long) small)
        read_lt := le_size_take (Nat.pos_of_ne_zero zero) small
        size_le := le_size_take (Nat.not_lt.mp long) small }

/-- A queue of `capacity` cells that all hold `blank`. -/
def new (blank : α) (capacity delay : Nat) : Except FifoError (Fifo α) :=
  ofStorage (List.replicate capacity blank) capacity delay

/-! ## Writing cells -/

/-- Writes `values` into the cells from `start` on. -/
def place (cells : Array α) (start : Nat) : List α → Array α
  | [] => cells
  | v :: vs => place (cells.setIfInBounds start v) (start + 1) vs

@[simp]
theorem size_place (cells : Array α) (start : Nat) (values : List α) :
    (place cells start values).size = cells.size := by
  induction values generalizing cells start with
  | nil => rfl
  | cons v vs ih => simp [place, ih]

/-- The queue with `values` in the cells from `start` on. The cursors stay. -/
def write (f : Fifo α) (start : Nat) (values : List α) : Fifo α :=
  { f with
    storage := place f.storage start values
    initial_le := by simpa using f.initial_le
    read_lt := by simpa using f.read_lt
    size_le := by simpa using f.size_le }

/-- Puts the initial tokens back into the first cells. The other cells keep what they hold. -/
def reset (f : Fifo α) : Fifo α :=
  { f with
    storage := place f.storage 0 f.initial
    read := 0
    size := f.initial.length
    initial_le := by simpa using f.initial_le
    read_lt := by simpa using Nat.zero_lt_of_lt f.read_lt
    size_le := by simpa using f.initial_le }

/-! ## Regions -/

/-- The elements that a reservation lends out, in the two runs in which they are stored. For a
writing these are the elements that were in the cells before. -/
structure Region (α : Type) where
  /-- The first cell of the first run. The second run starts at cell 0. -/
  start : Nat
  first : Array α
  second : Array α
  deriving DecidableEq, Repr

namespace Region

def length (r : Region α) : Nat := r.first.size + r.second.size

def isEmpty (r : Region α) : Bool := r.length == 0

def toList (r : Region α) : List α := r.first.toList ++ r.second.toList

def get? (r : Region α) (i : Nat) : Option α :=
  if i < r.first.size then r.first[i]? else r.second[i - r.first.size]?

@[simp]
theorem length_toList (r : Region α) : r.toList.length = r.length := by simp [toList, length]

theorem get?_eq_getElem?_toList (r : Region α) (i : Nat) : r.get? i = r.toList[i]? := by
  simp [get?, toList, List.getElem?_append]

/-- The elements for a buffer of `length` places, if that is the length of the region. -/
def copyTo (r : Region α) (length : Nat) : Option (List α) :=
  if length = r.length then some r.toList else none

end Region

/-- `n` cells from `start` on, round the end of the storage. -/
def region (f : Fifo α) (start n : Nat) : Region α where
  start := start
  first := f.storage.extract start (start + min n (f.capacity - start))
  second := f.storage.extract 0 (n - min n (f.capacity - start))

/-- Takes the `n` oldest elements out of the queue. -/
def reserveRead (f : Fifo α) (n : Nat) : Except FifoError (Region α × Fifo α) :=
  if f.size < n then .error (.underflow n f.size)
  else
    .ok (f.region f.read n,
      { f with
        read := (f.read + n) % f.storage.size
        size := f.size - n
        read_lt := Nat.mod_lt _ (Nat.zero_lt_of_lt f.read_lt)
        size_le := Nat.le_trans (Nat.sub_le _ _) f.size_le })

/-- Adds `n` elements at the end of the queue, to be filled in. -/
def reserveWrite (f : Fifo α) (n : Nat) : Except FifoError (Region α × Fifo α) :=
  if short : f.free < n then .error (.overflow n f.free)
  else
    .ok (f.region ((f.read + f.size) % f.capacity) n,
      { f with
        size := f.size + n
        size_le := by
          have := f.size_le
          simp only [free, capacity] at short
          omega })

/-- Fills the cells of a region in order, as far as both the cells and the values reach. -/
def fill (f : Fifo α) (r : Region α) (values : List α) : Fifo α :=
  (f.write r.start (values.take r.first.size)).write 0
    ((values.drop r.first.size).take r.second.size)

/-- Fills a region run by run with `values`, and tells whether the lengths agree. A run whose share
of the values has another length is left as it is, and nothing is written after it. -/
def copyFrom (f : Fifo α) (r : Region α) (values : List α) : Bool × Fifo α :=
  if values.length < r.first.size then (false, f)
  else
    let head := f.write r.start (values.take r.first.size)
    if values.length = r.length then (true, head.write 0 (values.drop r.first.size))
    else (false, head)

/-! ## Whole operations -/

/-- Reads the `n` oldest elements. -/
def pop (f : Fifo α) (n : Nat) : Except FifoError (List α × Fifo α) := do
  let (r, f) ← f.reserveRead n
  return (r.toList, f)

/-- Appends all of `values`. -/
def push (f : Fifo α) (values : List α) : Except FifoError (Fifo α) := do
  let (r, f) ← f.reserveWrite values.length
  return f.fill r values

end Fifo

end Dataflow
