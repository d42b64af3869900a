import Dataflow.Fifo.Contents

/-!
# Rings as list queues

Leaving aside where they are stored, the elements of a queue are a list whose length is bounded. The ring
with its read cursor and its size refines this list: after any operations it answers the next one as the
list does, and what it lends out, in whichever way it is looked at, is the front of the list.
-/

namespace Dataflow

/-- A queue as the list of its elements, oldest first. -/
structure ListQueue (α : Type) where
  capacity : Nat
  /-- The elements that `reset` puts back. -/
  initial : List α
  elements : List α
  deriving DecidableEq, Repr

namespace ListQueue

variable {α : Type}

def free (q : ListQueue α) : Nat := q.capacity - q.elements.length

def write (q : ListQueue α) (values : List α) : Except FifoError (ListQueue α) :=
  if values.length ≤ q.free then .ok { q with elements := q.elements ++ values }
  else .error (.overflow values.length q.free)

def read (q : ListQueue α) (n : Nat) : Except FifoError (List α × ListQueue α) :=
  if n ≤ q.elements.length then .ok (q.elements.take n, { q with elements := q.elements.drop n })
  else .error (.underflow n q.elements.length)

def reset (q : ListQueue α) : ListQueue α := { q with elements := q.initial }

end ListQueue

namespace Fifo

variable {α : Type}

/-! ## Reservations that succeed -/

theorem exists_reserveRead {f : Fifo α} {n : Nat} (h : n ≤ f.size) :
    ∃ r g, f.reserveRead n = .ok (r, g) := ⟨_, _, if_neg (Nat.not_lt.mpr h)⟩

theorem exists_pop {f : Fifo α} {n : Nat} (h : n ≤ f.size) :
    ∃ g, f.pop n = .ok (f.contents.take n, g) ∧ g.contents = f.contents.drop n := by
  obtain ⟨r, g, hread⟩ := exists_reserveRead h
  have hpop := pop_eq_ok_iff.mpr ⟨r, hread, rfl⟩
  obtain ⟨hsplit, hlength⟩ := contents_of_pop hpop
  refine ⟨g, ?_, ?_⟩
  · rw [hpop, ← hsplit, List.take_left' hlength]
  · rw [← hsplit, List.drop_left' hlength]

theorem exists_reserveWrite {f : Fifo α} {n : Nat} (h : n ≤ f.free) :
    ∃ r g, f.reserveWrite n = .ok (r, g) := ⟨_, _, dif_neg (Nat.not_lt.mpr h)⟩

/-- A reading moves the cursors only. -/
theorem storage_of_reserveRead {f g : Fifo α} {n : Nat} {r : Region α}
    (h : f.reserveRead n = .ok (r, g)) : g.storage = f.storage ∧ g.initial = f.initial :=
  ⟨(taken_of_reserveRead h).storage, (taken_of_reserveRead h).initial⟩

theorem storage_of_reserveWrite {f g : Fifo α} {n : Nat} {r : Region α}
    (h : f.reserveWrite n = .ok (r, g)) : g.storage = f.storage ∧ g.initial = f.initial :=
  ⟨(extended_of_reserveWrite h).storage, (extended_of_reserveWrite h).initial⟩

theorem capacity_of_reserveRead {f g : Fifo α} {n : Nat} {r : Region α}
    (h : f.reserveRead n = .ok (r, g)) : g.capacity = f.capacity :=
  congrArg Array.size (storage_of_reserveRead h).1

theorem capacity_of_reserveWrite {f g : Fifo α} {n : Nat} {r : Region α}
    (h : f.reserveWrite n = .ok (r, g)) : g.capacity = f.capacity :=
  congrArg Array.size (storage_of_reserveWrite h).1

/-! ## Lent cells -/

theorem toList_of_reserveRead {f g : Fifo α} {n : Nat} {r : Region α}
    (h : f.reserveRead n = .ok (r, g)) :
    r.toList = f.contents.take n ∧ g.contents = f.contents.drop n := by
  obtain ⟨hsplit, hlength⟩ := contents_of_reserveRead h
  rw [← Region.length_toList] at hlength
  rw [← hsplit]
  exact ⟨(List.take_left' hlength).symm, (List.drop_left' hlength).symm⟩

theorem length_of_reserveWrite {f g : Fifo α} {n : Nat} {r : Region α}
    (h : f.reserveWrite n = .ok (r, g)) : r.length = n := by
  obtain ⟨-, -, -, -, rfl, hroom⟩ := extended_of_reserveWrite h
  have hstart : (f.read + f.size) % f.capacity < f.capacity :=
    Nat.mod_lt _ (Nat.zero_lt_of_lt f.read_lt)
  simp only [capacity] at hroom hstart
  simp only [Region.length, region, capacity, Array.size_extract]
  omega

/-- What a reservation for writing lends: cells that stand behind each other round the end of the storage,
with what they hold. -/
theorem cells_of_reserveWrite {f g : Fifo α} {n : Nat} {r : Region α}
    (h : f.reserveWrite n = .ok (r, g)) :
    (r.second.size ≤ r.start ∧ r.start + r.first.size ≤ f.storage.size) ∧
      (∀ i < r.first.size, r.toList[i]? = f.storage[r.start + i]?) ∧
      ∀ i < r.second.size, r.toList[r.first.size + i]? = f.storage[i]? := by
  obtain ⟨-, -, -, -, rfl, hroom⟩ := extended_of_reserveWrite h
  have hstart : (f.read + f.size) % f.capacity < f.capacity :=
    Nat.mod_lt _ (Nat.zero_lt_of_lt f.read_lt)
  simp only [← Region.get?_eq_getElem?_toList, Region.get?]
  simp only [capacity] at hroom hstart
  simp only [region, capacity, Array.size_extract]
  refine ⟨by omega, fun i hi ↦ ?_, fun i hi ↦ ?_⟩
  · rw [if_pos hi, Array.getElem?_extract, if_pos (by omega)]
  · rw [if_neg (by omega), Array.getElem?_extract, if_pos (by omega)]
    congr 1
    omega

/-- `values` laid over the first `n` elements of a list. -/
theorem getElem?_overlay {values old : List α} {n i : Nat} (hi : i < n) :
    (values.take n ++ old.drop values.length)[i]? =
      if i < values.length then values[i]? else old[i]? := by
  rw [List.getElem?_append, List.length_take]
  split
  · rw [if_pos (by omega), List.getElem?_take, if_pos hi]
  · rw [if_neg (by omega), List.getElem?_drop]
    congr 1
    omega

/-- Cells for which no value is given keep what they hold. -/
theorem contents_fill {f g : Fifo α} {n : Nat} {r : Region α} (h : f.reserveWrite n = .ok (r, g))
    (values : List α) :
    (g.fill r values).contents =
      f.contents ++ (values.take n ++ r.toList.drop values.length) := by
  obtain ⟨hstorage, -⟩ := storage_of_reserveWrite h
  obtain ⟨hends, hfirst, hsecond⟩ := cells_of_reserveWrite h
  have hlength := length_of_reserveWrite h
  have hvalue {i : Nat} (hi : i < n) : (values.take n ++ r.toList.drop values.length)[i]? = _ :=
    getElem?_overlay hi
  have hfull : (values.take n ++ r.toList.drop values.length).length = n := by
    rw [List.length_append, List.length_take, List.length_drop, Region.length_toList]
    omega
  rw [← contents_fill_of_reserveWrite h hfull]
  generalize values.take n ++ r.toList.drop values.length = overlay at hvalue hfull
  have hwhole : overlay.length = r.length := hfull.trans hlength.symm
  have hsame : (g.fill r values).storage = (g.fill r overlay).storage := by
    apply Array.ext_getElem?
    intro c
    rw [getElem?_storage_fill hwhole]
    rw [Region.length] at hlength
    simp only [fill, write, getElem?_place, size_place, List.length_take, List.length_drop,
      Nat.sub_zero, Nat.zero_le, true_and, Nat.zero_add, hstorage]
    by_cases hwrap : c < r.second.size
    · rw [if_pos (show c < r.second.size ∧ c < f.storage.size by omega), hvalue (by omega),
        hsecond c hwrap, List.getElem?_take, if_pos hwrap, List.getElem?_drop]
      by_cases hc : r.first.size + c < values.length
      · rw [if_pos (by omega), if_pos hc]
      · rw [if_neg (by omega), if_neg (by omega), if_neg hc]
    rw [if_neg (show ¬ (c < r.second.size ∧ c < f.storage.size) by omega), if_neg (by omega)]
    by_cases hhead : r.start ≤ c ∧ c < r.start + r.first.size
    · rw [if_pos (show r.start ≤ c ∧ c < r.start + r.first.size ∧ c < f.storage.size by omega),
        hvalue (by omega), hfirst _ (by omega), Nat.add_sub_cancel' hhead.1, List.getElem?_take,
        if_pos (show c - r.start < r.first.size by omega)]
      by_cases hc : c - r.start < values.length
      · rw [if_pos (by omega), if_pos hc]
      · rw [if_neg (by omega), if_neg hc]
    · rw [if_neg (show ¬ (r.start ≤ c ∧ c < r.start + r.first.size ∧ c < f.storage.size) by omega),
        if_neg (by omega)]
  unfold contents
  rw [hsame]
  rfl

/-- Run by run the cells of a reservation take as many values as they are. -/
theorem copyFrom_of_reserveWrite {f g : Fifo α} {r : Region α} {values : List α}
    (h : f.reserveWrite values.length = .ok (r, g)) :
    g.copyFrom r values = (true, g.fill r values) := by
  have hlength : values.length = r.length := (length_of_reserveWrite h).symm
  have hfirst : ¬ values.length < r.first.size := by
    rw [hlength, Region.length]
    omega
  have hsecond : (values.drop r.first.size).length ≤ r.second.size := by
    rw [List.length_drop, hlength, Region.length]
    omega
  rw [copyFrom, if_neg hfirst, if_pos hlength, fill, List.take_of_length_le hsecond]

/-! ## One operation -/

/-- The list that a ring stores. -/
def toListQueue (f : Fifo α) : ListQueue α := ⟨f.capacity, f.initial, f.contents⟩

@[simp]
theorem free_toListQueue (f : Fifo α) : f.toListQueue.free = f.free := by
  rw [ListQueue.free, toListQueue, length_contents, free]

theorem toListQueue_ofStorage {storage : List α} {capacity delay : Nat} {f : Fifo α}
    (h : ofStorage storage capacity delay = .ok f) :
    f.toListQueue = ⟨capacity, storage.take delay, storage.take delay⟩ := by
  have hcontents := contents_of_ofStorage h
  unfold ofStorage at h
  split at h
  · cases h
  split at h
  · cases h
  rename_i hlength
  split at h
  · cases h
  cases h
  have hcapacity : (storage.take capacity).length = capacity :=
    List.length_take_of_le (Nat.not_lt.mp hlength)
  rw [toListQueue, hcontents, Fifo.capacity, List.size_toArray, hcapacity]

theorem read_toListQueue (f : Fifo α) (n : Nat) :
    f.toListQueue.read n = (f.reserveRead n).map fun lent ↦ (lent.1.toList, lent.2.toListQueue) := by
  rw [ListQueue.read, toListQueue, length_contents]
  by_cases h : n ≤ f.size
  · obtain ⟨r, g, hread⟩ := exists_reserveRead h
    obtain ⟨htaken, hleft⟩ := toList_of_reserveRead hread
    rw [if_pos h, hread, Except.map, htaken, toListQueue, capacity_of_reserveRead hread,
      (storage_of_reserveRead hread).2, hleft]
  · rw [if_neg h, reserveRead, if_pos (Nat.not_le.mp h), Except.map]

theorem pop_eq_map (f : Fifo α) (n : Nat) :
    f.pop n = (f.reserveRead n).map fun lent ↦ (lent.1.toList, lent.2) := by
  rw [pop]
  cases f.reserveRead n <;> rfl

theorem write_toListQueue (f : Fifo α) (values : List α) :
    f.toListQueue.write values =
      (f.reserveWrite values.length).map fun lent ↦ (lent.2.fill lent.1 values).toListQueue := by
  rw [ListQueue.write, free_toListQueue]
  by_cases h : values.length ≤ f.free
  · obtain ⟨r, g, hwrite⟩ := exists_reserveWrite h
    have hinitial : (g.fill r values).initial = f.initial := (storage_of_reserveWrite hwrite).2
    rw [if_pos h, hwrite, Except.map, toListQueue, toListQueue, capacity_fill,
      capacity_of_reserveWrite hwrite, hinitial, contents_fill_of_reserveWrite hwrite rfl]
  · rw [if_neg h, reserveWrite, dif_pos (Nat.not_le.mp h), Except.map]

theorem push_eq_map (f : Fifo α) (values : List α) :
    f.push values = (f.reserveWrite values.length).map fun lent ↦ lent.2.fill lent.1 values := by
  rw [push]
  cases f.reserveWrite values.length <;> rfl

@[simp]
theorem toListQueue_reset (f : Fifo α) : f.reset.toListQueue = f.toListQueue.reset := by
  have hcapacity : f.reset.capacity = f.capacity := size_place f.storage 0 f.initial
  rw [toListQueue, hcapacity, contents_reset]
  rfl

end Fifo

/-! ## Sequences of operations -/

/-- What a host or a node does with a queue. -/
inductive QueueOp (α : Type) where
  | push (values : List α)
  | pop (n : Nat)
  /-- Reads the elements where they are stored. -/
  | lend (n : Nat)
  /-- Takes cells for as many values and fills them in order. -/
  | fill (values : List α)
  | reset

namespace QueueOp

variable {α Q Q' : Type}

/-- What was read and the queue after it. A refused operation leaves the queue as it is. -/
def settle (q : Q) : Except FifoError (List α × Q) → Except FifoError (List α) × Q
  | .ok (values, q') => (.ok values, q')
  | .error e => (.error e, q)

/-- The answers to operations one after another. -/
def applyAll (apply : Q → QueueOp α → Except FifoError (List α × Q)) :
    List (QueueOp α) → Q → List (Except FifoError (List α)) × Q
  | [], q => ([], q)
  | op :: ops, q =>
    let (answer, q) := settle q (apply q op)
    let (answers, q) := applyAll apply ops q
    (answer :: answers, q)

/-- A view under which single operations agree carries over to sequences of them. -/
theorem applyAll_view {apply : Q → QueueOp α → Except FifoError (List α × Q)}
    {apply' : Q' → QueueOp α → Except FifoError (List α × Q')} {view : Q → Q'}
    (h : ∀ q op, apply' (view q) op = (apply q op).map fun read ↦ (read.1, view read.2))
    (ops : List (QueueOp α)) (q : Q) :
    applyAll apply' ops (view q) = ((applyAll apply ops q).1, view (applyAll apply ops q).2) := by
  induction ops generalizing q with
  | nil => rfl
  | cons op ops ih =>
    have hsettle : settle (view q) (apply' (view q) op) =
        ((settle q (apply q op)).1, view (settle q (apply q op)).2) := by
      rw [h]
      cases apply q op <;> rfl
    simp only [applyAll, hsettle, ih]

end QueueOp

def ListQueue.apply {α : Type} (q : ListQueue α) :
    QueueOp α → Except FifoError (List α × ListQueue α)
  | .push values | .fill values => (q.write values).map ([], ·)
  | .pop n | .lend n => q.read n
  | .reset => .ok ([], q.reset)

namespace ListQueue

variable {α : Type}

/-- The bound and the initial elements. -/
def fixed (q : ListQueue α) : Nat × List α := (q.capacity, q.initial)

theorem fixed_of_write {q q' : ListQueue α} {values : List α} (h : q.write values = .ok q') :
    q'.fixed = q.fixed := by
  unfold write at h
  split at h
  · cases h
    rfl
  · cases h

theorem fixed_of_read {q q' : ListQueue α} {n : Nat} {values : List α}
    (h : q.read n = .ok (values, q')) : q'.fixed = q.fixed := by
  unfold read at h
  split at h
  · cases h
    rfl
  · cases h

theorem fixed_settle (q : ListQueue α) (op : QueueOp α) :
    (QueueOp.settle q (q.apply op)).2.fixed = q.fixed := by
  have hwrite (values : List α) :
      (QueueOp.settle q ((q.write values).map fun q' ↦ (([] : List α), q'))).2.fixed = q.fixed := by
    cases h : q.write values with
    | error e => rfl
    | ok q' => exact fixed_of_write h
  have hread (n : Nat) : (QueueOp.settle q (q.read n)).2.fixed = q.fixed := by
    cases h : q.read n with
    | error e => rfl
    | ok taken => exact fixed_of_read h
  cases op with
  | push values => exact hwrite values
  | pop n => exact hread n
  | lend n => exact hread n
  | fill values => exact hwrite values
  | reset => rfl

theorem fixed_applyAll (ops : List (QueueOp α)) (q : ListQueue α) :
    (QueueOp.applyAll apply ops q).2.fixed = q.fixed := by
  induction ops generalizing q with
  | nil => rfl
  | cons op ops ih => exact (ih _).trans (q.fixed_settle op)

end ListQueue

namespace Fifo

variable {α : Type}

def apply (f : Fifo α) : QueueOp α → Except FifoError (List α × Fifo α)
  | .push values => (f.push values).map ([], ·)
  | .pop n => f.pop n
  | .lend n => (f.reserveRead n).map fun lent ↦ (lent.1.toList, lent.2)
  | .fill values => (f.reserveWrite values.length).map fun lent ↦ ([], lent.2.fill lent.1 values)
  | .reset => .ok ([], f.reset)

/-- Each operation answers as on the list, and leaves the list that is left there. -/
theorem apply_toListQueue (f : Fifo α) (op : QueueOp α) :
    f.toListQueue.apply op = (f.apply op).map fun read ↦ (read.1, read.2.toListQueue) := by
  cases op with
  | push values =>
    rw [ListQueue.apply, apply, write_toListQueue, push_eq_map]
    cases f.reserveWrite values.length <;> rfl
  | pop n =>
    rw [ListQueue.apply, apply, read_toListQueue, pop_eq_map]
    cases f.reserveRead n <;> rfl
  | lend n =>
    rw [ListQueue.apply, apply, read_toListQueue]
    cases f.reserveRead n <;> rfl
  | fill values =>
    rw [ListQueue.apply, apply, write_toListQueue]
    cases f.reserveWrite values.length <;> rfl
  | reset => rw [ListQueue.apply, apply, ← toListQueue_reset, Except.map]

/-! ### What stays fixed -/

theorem fixed_of_reserveRead {f g : Fifo α} {n : Nat} {r : Region α}
    (h : f.reserveRead n = .ok (r, g)) : g.toListQueue.fixed = f.toListQueue.fixed :=
  Prod.ext (capacity_of_reserveRead h) (storage_of_reserveRead h).2

theorem fixed_of_reserveWrite {f g : Fifo α} {n : Nat} {r : Region α}
    (h : f.reserveWrite n = .ok (r, g)) : g.toListQueue.fixed = f.toListQueue.fixed :=
  Prod.ext (capacity_of_reserveWrite h) (storage_of_reserveWrite h).2

theorem fixed_fill (f : Fifo α) (r : Region α) (values : List α) :
    (f.fill r values).toListQueue.fixed = f.toListQueue.fixed :=
  Prod.ext (capacity_fill f r values) rfl

theorem fixed_applyAll (ops : List (QueueOp α)) (f : Fifo α) :
    (QueueOp.applyAll apply ops f).2.toListQueue.fixed = f.toListQueue.fixed := by
  have hlist := congrArg Prod.snd (QueueOp.applyAll_view apply_toListQueue ops f)
  calc
    _ = (QueueOp.applyAll ListQueue.apply ops f.toListQueue).2.fixed := congrArg _ hlist.symm
    _ = _ := ListQueue.fixed_applyAll ops f.toListQueue

/-- However a region is looked at, it holds the oldest elements. -/
theorem views_of_reserveRead {f g : Fifo α} {n : Nat} {r : Region α}
    (h : f.reserveRead n = .ok (r, g)) :
    r.first.toList ++ r.second.toList = f.contents.take n ∧ r.length = n ∧
      (∀ i < n, r.get? i = f.contents[i]?) ∧ (∀ i, n ≤ i → r.get? i = none) ∧
      r.copyTo n = some (f.contents.take n) ∧ f.pop n = .ok (f.contents.take n, g) := by
  have htaken : r.toList = f.contents.take n := (toList_of_reserveRead h).1
  have hlength : r.length = n := (contents_of_reserveRead h).2
  refine ⟨htaken, hlength, ?_, ?_, ?_, ?_⟩
  · intro i hi
    rw [Region.get?_eq_getElem?_toList, htaken, List.getElem?_take_of_lt hi]
  · intro i hi
    rw [Region.get?_eq_getElem?_toList]
    apply List.getElem?_eq_none
    rwa [Region.length_toList, hlength]
  · rw [Region.copyTo, if_pos hlength.symm, htaken]
  · rw [pop_eq_map, h, Except.map, htaken]

theorem length_take_of_ofStorage {storage : List α} {capacity delay : Nat} {f : Fifo α}
    (h : ofStorage storage capacity delay = .ok f) : (storage.take delay).length = delay := by
  unfold ofStorage at h
  split at h
  · cases h
  split at h
  · cases h
  split at h
  · cases h
  exact List.length_take_of_le (by omega)

/-- After any operations a ring, of blank cells or over given ones, has answered as a list with the same
bound and the same initial elements, and it holds the elements of that list. What it lends out is the front
of the list, seen run by run, in order, by position or copied, and the cells it lends for writing take as
many values as were asked for. Its capacity, its delay and what it goes back to are as at the beginning. -/
theorem answers_as_listQueue {storage : List α} {capacity delay : Nat} {f : Fifo α}
    (h : ofStorage storage capacity delay = .ok f) (ops : List (QueueOp α)) :
    ∃ answers g q, QueueOp.applyAll apply ops f = (answers, g) ∧
      QueueOp.applyAll ListQueue.apply ops ⟨capacity, storage.take delay, storage.take delay⟩ =
        (answers, q) ∧
      g.contents = q.elements ∧ g.size = q.elements.length ∧ g.size ≤ capacity ∧ g.read < capacity ∧
      g.capacity = capacity ∧ g.delay = delay ∧ g.reset.contents = storage.take delay ∧
      (∀ n r t, g.reserveRead n = .ok (r, t) →
        r.first.toList ++ r.second.toList = q.elements.take n ∧ r.length = n ∧
          (∀ i < n, r.get? i = q.elements[i]?) ∧ (∀ i, n ≤ i → r.get? i = none) ∧
          r.copyTo n = some (q.elements.take n) ∧ g.pop n = .ok (q.elements.take n, t)) ∧
      ∀ values r t, g.reserveWrite values.length = .ok (r, t) →
        t.copyFrom r values = (true, t.fill r values) ∧ g.push values = .ok (t.fill r values) := by
  obtain ⟨answers, g, hrun⟩ : ∃ answers g, QueueOp.applyAll apply ops f = (answers, g) :=
    ⟨_, _, rfl⟩
  have hlist : QueueOp.applyAll ListQueue.apply ops
      ⟨capacity, storage.take delay, storage.take delay⟩ = (answers, g.toListQueue) := by
    rw [← toListQueue_ofStorage h, QueueOp.applyAll_view apply_toListQueue ops f, hrun]
  have hfixed : (g.capacity, g.initial) = (capacity, storage.take delay) := by
    have hkept := ListQueue.fixed_applyAll ops ⟨capacity, storage.take delay, storage.take delay⟩
    rw [hlist] at hkept
    exact hkept
  obtain ⟨hcapacity, hinitial⟩ := Prod.mk.inj hfixed
  refine ⟨answers, g, g.toListQueue, hrun, hlist, rfl, g.length_contents.symm, ?_, ?_, hcapacity, ?_,
    ?_, ?_, ?_⟩
  · rw [← hcapacity]
    exact g.size_le
  · rw [← hcapacity]
    exact g.read_lt
  · rw [Fifo.delay, hinitial]
    exact length_take_of_ofStorage h
  · rw [contents_reset, hinitial]
  · intro n r t hread
    exact views_of_reserveRead hread
  · intro values r t hwrite
    refine ⟨copyFrom_of_reserveWrite hwrite, ?_⟩
    rw [push_eq_map, hwrite, Except.map]

/-- A ring of four cells whose elements come to lie round the end, and a refusal on either side. -/
theorem answers_round_the_end :
    ∃ f : Fifo Nat, ofStorage [9, 8, 0, 0, 5] 4 2 = .ok f ∧ ∃ answers g q,
      QueueOp.applyAll apply [.pop 1, .push [1, 2, 3], .fill [4], .lend 5, .lend 3, .reset] f =
        (answers, g) ∧
      QueueOp.applyAll ListQueue.apply
        [.pop 1, .push [1, 2, 3], .fill [4], .lend 5, .lend 3, .reset] ⟨4, [9, 8], [9, 8]⟩ =
        (answers, q) ∧
      answers = [.ok [9], .ok [], .error (.overflow 1 0), .error (.underflow 5 4), .ok [8, 1, 2],
        .ok []] ∧
      g.contents = [9, 8] := by
  obtain ⟨f, hf⟩ : ∃ f : Fifo Nat, ofStorage [9, 8, 0, 0, 5] 4 2 = .ok f := ⟨_, rfl⟩
  obtain ⟨answers, g, q, hrun, hlist, hcontents, -⟩ := answers_as_listQueue hf
    [.pop 1, .push [1, 2, 3], .fill [4], .lend 5, .lend 3, .reset]
  refine ⟨f, hf, answers, g, q, hrun, hlist, ?_, ?_⟩
  · exact (congrArg Prod.fst hlist).symm
  · rw [hcontents]
    exact congrArg (·.2.elements) hlist.symm

end Fifo

end Dataflow
