import Dataflow.Fifo.Basic

/-!
# The contents of a queue

Seen through `contents`, a queue is a list: it starts with the initial tokens, reading takes elements
off the front, and writing appends what the lent cells are filled with.
-/

namespace Dataflow.Fifo

variable {α : Type}

/-! ## Rings of cells -/

theorem getElem?_ring (cells : List α) {start n : Nat} (hs : start < cells.length)
    (hn : n ≤ cells.length) (i : Nat) :
    (ring cells start n)[i]? = if i < n then cells[(start + i) % cells.length]? else none := by
  unfold ring
  rw [List.getElem?_take]
  split
  · rename_i hi
    rw [List.getElem?_append]
    split
    · rename_i hin
      simp only [List.length_drop] at hin
      rw [List.getElem?_drop, Nat.mod_eq_of_lt (by omega)]
    · rename_i hout
      simp only [List.length_drop] at hout ⊢
      rw [List.getElem?_take, if_pos (by omega), Nat.mod_eq_sub_mod (by omega),
        Nat.mod_eq_of_lt (by omega)]
      congr 1
      omega
  · rfl

@[simp]
theorem length_ring (cells : List α) (start n : Nat) :
    (ring cells start n).length = min n cells.length := by
  simp only [ring, List.length_take, List.length_append, List.length_drop]
  omega

@[simp]
theorem length_contents (f : Fifo α) : f.contents.length = f.size := by
  have := f.size_le
  simp only [contents, length_ring, Array.length_toList]
  omega

theorem getElem?_contents (f : Fifo α) (i : Nat) :
    f.contents[i]? = if i < f.size then f.storage[(f.read + i) % f.capacity]? else none := by
  have := getElem?_ring f.storage.toList (by simpa using f.read_lt)
    (by simpa using f.size_le) i
  simpa [contents, capacity] using this

/-! ## What a reservation comes to -/

/-- The cells of the `n` oldest elements are lent, and the queue goes on without these. -/
structure Taken (f g : Fifo α) (r : Region α) (n : Nat) : Prop where
  storage : g.storage = f.storage
  initial : g.initial = f.initial
  read : g.read = (f.read + n) % f.capacity
  size : g.size = f.size - n
  region : r = f.region f.read n
  enough : n ≤ f.size

theorem taken_of_reserveRead {f g : Fifo α} {n : Nat} {r : Region α}
    (h : f.reserveRead n = .ok (r, g)) : Taken f g r n := by
  unfold reserveRead at h
  split at h
  · cases h
  · rename_i short
    cases h
    exact ⟨rfl, rfl, rfl, rfl, rfl, Nat.not_lt.mp short⟩

/-- The next `n` cells are lent, and count as elements from now on. -/
structure Extended (f g : Fifo α) (r : Region α) (n : Nat) : Prop where
  storage : g.storage = f.storage
  initial : g.initial = f.initial
  read : g.read = f.read
  size : g.size = f.size + n
  region : r = f.region ((f.read + f.size) % f.capacity) n
  room : f.size + n ≤ f.capacity

theorem extended_of_reserveWrite {f g : Fifo α} {n : Nat} {r : Region α}
    (h : f.reserveWrite n = .ok (r, g)) : Extended f g r n := by
  have hsize : f.size ≤ f.capacity := f.size_le
  unfold reserveWrite at h
  split at h
  · cases h
  · rename_i short
    cases h
    have hroom : f.size + n ≤ f.capacity := by
      simp only [free] at short
      omega
    exact ⟨rfl, rfl, rfl, rfl, rfl, hroom⟩

/-! ## Reading -/

theorem ring_add (cells : List α) {start k n : Nat} (hs : start < cells.length)
    (hn : k + n ≤ cells.length) :
    ring cells start (k + n) = ring cells start k ++ ring cells ((start + k) % cells.length) n := by
  apply List.ext_getElem?
  intro i
  have hpos : 0 < cells.length := by omega
  rw [getElem?_ring cells hs hn, List.getElem?_append, length_ring, Nat.min_eq_left (by omega),
    getElem?_ring cells hs (by omega), getElem?_ring cells (Nat.mod_lt _ hpos) (by omega)]
  by_cases hk : i < k
  · simp [hk, show i < k + n by omega]
  · rw [if_neg hk, Nat.mod_add_mod, show start + k + (i - k) = start + i by omega]
    by_cases hi : i < k + n
    · rw [if_pos hi, if_pos (by omega)]
    · rw [if_neg hi, if_neg (by omega)]

theorem toList_region (f : Fifo α) {start n : Nat} (hs : start < f.capacity) (hn : n ≤ f.capacity) :
    (f.region start n).toList = ring f.storage.toList start n := by
  simp only [capacity] at hs hn
  simp only [region, Region.toList, capacity, ring, Array.toList_extract, List.extract_eq_take_drop,
    List.take_append, List.length_drop, Array.length_toList, List.drop_zero, Nat.sub_zero,
    Nat.add_sub_cancel_left, List.take_take]
  congr 1
  · apply List.take_eq_take_iff.mpr
    simp
  · congr 1
    omega

/-- Reading lends the oldest elements out and leaves the others. -/
theorem contents_of_reserveRead {f g : Fifo α} {n : Nat} {r : Region α}
    (h : f.reserveRead n = .ok (r, g)) : r.toList ++ g.contents = f.contents ∧ r.length = n := by
  obtain ⟨hstorage, -, hread, hsize, rfl, henough⟩ := taken_of_reserveRead h
  have hle : f.size ≤ f.capacity := f.size_le
  have hr : (f.region f.read n).toList = ring f.storage.toList f.read n :=
    f.toList_region f.read_lt (by omega)
  constructor
  · have hsplit := ring_add f.storage.toList (k := n) (n := f.size - n) (by simpa using f.read_lt)
      (by simpa [capacity, Nat.add_sub_cancel' henough] using hle)
    rw [Nat.add_sub_cancel' henough] at hsplit
    rw [hr, contents, contents, hstorage, hread, hsize, hsplit]
    rfl
  · have hlength := congrArg List.length hr
    rw [Region.length_toList, length_ring, Array.length_toList] at hlength
    simp only [capacity] at hle
    omega

/-! ## Writing -/

theorem getElem?_place (cells : Array α) (start : Nat) (values : List α) (i : Nat) :
    (place cells start values)[i]? =
      if start ≤ i ∧ i < start + values.length ∧ i < cells.size then values[i - start]?
      else cells[i]? := by
  induction values generalizing cells start with
  | nil =>
    rw [if_neg (by simp; omega)]
    rfl
  | cons v vs ih =>
    rw [place, ih, Array.getElem?_setIfInBounds, Array.size_setIfInBounds]
    simp only [List.length_cons]
    by_cases hi : start = i
    · subst hi
      rw [if_neg (by omega), if_pos rfl, Nat.sub_self]
      by_cases hsize : start < cells.size
      · rw [if_pos hsize, if_pos ⟨by omega, by omega, hsize⟩]
        rfl
      · rw [if_neg hsize, if_neg (by omega)]
        simp [hsize]
    · by_cases hin : start ≤ i ∧ i < start + (vs.length + 1) ∧ i < cells.size
      · rw [if_pos (by omega), if_pos hin, show i - start = i - (start + 1) + 1 by omega]
        rfl
      · rw [if_neg (by omega), if_neg hin, if_neg hi]

theorem getElem?_storage_fill {f : Fifo α} {r : Region α} {values : List α}
    (h : values.length = r.length) (i : Nat) :
    (f.fill r values).storage[i]? =
      if i < r.second.size ∧ i < f.storage.size then values[r.first.size + i]?
      else if r.start ≤ i ∧ i < r.start + r.first.size ∧ i < f.storage.size then
        values[i - r.start]?
      else f.storage[i]? := by
  simp only [Region.length] at h
  simp only [fill, write, getElem?_place, size_place, List.length_take, List.length_drop,
    Nat.sub_zero, Nat.zero_le, true_and, Nat.zero_add]
  by_cases hsecond : i < r.second.size ∧ i < f.storage.size
  · rw [if_pos (by omega), if_pos hsecond, List.getElem?_take, if_pos hsecond.1, List.getElem?_drop]
  · rw [if_neg (by omega), if_neg hsecond]
    by_cases hfirst : r.start ≤ i ∧ i < r.start + r.first.size ∧ i < f.storage.size
    · rw [if_pos (by omega), if_pos hfirst, List.getElem?_take, if_pos (by omega)]
    · rw [if_neg (by omega), if_neg hfirst]

theorem mod_cases {a c : Nat} (h : a < c + c) : a < c ∧ a % c = a ∨ c ≤ a ∧ a % c = a - c := by
  rcases Nat.lt_or_ge a c with hlt | hge
  · exact .inl ⟨hlt, Nat.mod_eq_of_lt hlt⟩
  · exact .inr ⟨hge, by rw [Nat.mod_eq_sub_mod hge, Nat.mod_eq_of_lt (by omega)]⟩

/-- The cell `j` places on from the start of a region that is filled holds value `j`. Behind the region
nothing has changed. -/
theorem getElem?_storage_fill_region (f : Fifo α) {start n j : Nat} {values : List α}
    (hs : start < f.capacity) (hn : n ≤ f.capacity) (hv : values.length = n) (hj : j < f.capacity) :
    (f.fill (f.region start n) values).storage[(start + j) % f.capacity]? =
      if j < n then values[j]? else f.storage[(start + j) % f.capacity]? := by
  have hstart : (f.region start n).start = start := rfl
  simp only [capacity] at hs hn hj ⊢
  have hfirst : (f.region start n).first.size = min n (f.storage.size - start) := by
    simp only [region, capacity, Array.size_extract]
    omega
  have hsecond : (f.region start n).second.size = n - min n (f.storage.size - start) := by
    simp only [region, capacity, Array.size_extract]
    omega
  have hlength : values.length = (f.region start n).length := by
    rw [Region.length, hfirst, hsecond]
    omega
  rw [getElem?_storage_fill hlength, hfirst, hsecond, hstart]
  rcases mod_cases (a := start + j) (c := f.storage.size) (by omega) with ⟨hlt, hmod⟩ | ⟨hge, hmod⟩
  · rw [hmod, if_neg (by omega)]
    by_cases hjn : j < n
    · rw [if_pos (by omega), if_pos hjn, Nat.add_sub_cancel_left]
    · rw [if_neg (by omega), if_neg hjn]
  · rw [hmod]
    by_cases hjn : j < n
    · rw [if_pos (by omega), if_pos hjn]
      congr 1
      omega
    · rw [if_neg (by omega), if_neg (by omega), if_neg hjn]

@[simp]
theorem capacity_fill (f : Fifo α) (r : Region α) (values : List α) :
    (f.fill r values).capacity = f.capacity := by
  simp [fill, write, capacity]

/-- Writing appends what the lent cells are filled with. -/
theorem contents_fill_of_reserveWrite {f g : Fifo α} {r : Region α} {n : Nat} {values : List α}
    (h : f.reserveWrite n = .ok (r, g)) (hv : values.length = n) :
    (g.fill r values).contents = f.contents ++ values := by
  obtain ⟨hstorage, -, hread, hsize, hr, hroom⟩ := extended_of_reserveWrite h
  have hcapacity : g.capacity = f.capacity := congrArg Array.size hstorage
  have hregion : r = g.region ((g.read + f.size) % g.capacity) n := by
    simp only [hr, region, capacity, hstorage, hread]
  rw [← hcapacity] at hroom
  have hcell (j : Nat) (hj : j < g.capacity) :
      (g.fill r values).storage[(g.read + f.size + j) % g.capacity]? =
        if j < n then values[j]? else g.storage[(g.read + f.size + j) % g.capacity]? := by
    rw [← Nat.mod_add_mod (g.read + f.size) _ j, hregion]
    exact g.getElem?_storage_fill_region (Nat.mod_lt _ (Nat.zero_lt_of_lt g.read_lt)) (by omega) hv hj
  have hfilled : (g.fill r values).read = g.read ∧ (g.fill r values).size = g.size := ⟨rfl, rfl⟩
  apply List.ext_getElem?
  intro i
  rw [getElem?_contents, List.getElem?_append, length_contents, getElem?_contents, hfilled.1,
    hfilled.2, hsize, capacity_fill]
  by_cases hold : i < f.size
  · -- Seen from the region, the old elements come after its end.
    have hround := hcell (g.capacity - f.size + i) (by omega)
    rw [show g.read + f.size + (g.capacity - f.size + i) = g.read + i + g.capacity by omega,
      Nat.add_mod_right, if_neg (by omega)] at hround
    rw [if_pos (by omega), if_pos hold, if_pos hold, hround, hstorage, hcapacity, hread]
  · rw [if_neg hold]
    by_cases hnew : i < f.size + n
    · have hplace := hcell (i - f.size) (by omega)
      rw [show g.read + f.size + (i - f.size) = g.read + i by omega, if_pos (by omega)] at hplace
      rw [if_pos hnew, hplace]
    · rw [if_neg hnew, List.getElem?_eq_none (by omega)]

/-! ## Whole operations -/

theorem contents_of_ofStorage {storage : List α} {capacity delay : Nat} {f : Fifo α}
    (h : ofStorage storage capacity delay = .ok f) : f.contents = storage.take delay := by
  unfold ofStorage at h
  split at h
  · cases h
  · split at h
    · cases h
    · split at h
      · cases h
      · simp only [Except.ok.injEq] at h
        subst h
        simp [contents, ring, List.take_take, Nat.min_eq_left (show delay ≤ capacity by omega)]

theorem contents_reset (f : Fifo α) : f.reset.contents = f.initial := by
  have hle := f.initial_le
  have hread := f.read_lt
  apply List.ext_getElem?
  intro i
  rw [getElem?_contents]
  simp only [reset, capacity, size_place, Nat.zero_add, getElem?_place, Nat.zero_le, true_and,
    Nat.sub_zero]
  rcases Nat.lt_or_ge i f.initial.length with hi | hi
  · rw [if_pos hi, Nat.mod_eq_of_lt (by omega), if_pos (by omega)]
  · rw [if_neg (by omega), List.getElem?_eq_none hi]

theorem pop_eq_ok_iff {f g : Fifo α} {n : Nat} {values : List α} :
    f.pop n = .ok (values, g) ↔ ∃ r, f.reserveRead n = .ok (r, g) ∧ r.toList = values := by
  unfold pop
  cases f.reserveRead n with
  | error e => simp [bind, Except.bind]
  | ok lent =>
    simp only [bind, Except.bind, pure, Except.pure, Except.ok.injEq, Prod.mk.injEq]
    constructor
    · rintro ⟨rfl, rfl⟩
      exact ⟨lent.1, rfl, rfl⟩
    · rintro ⟨r, rfl, rfl⟩
      exact ⟨rfl, rfl⟩

/-- Popping splits the contents after `n` elements. -/
theorem contents_of_pop {f g : Fifo α} {n : Nat} {values : List α} (h : f.pop n = .ok (values, g)) :
    values ++ g.contents = f.contents ∧ values.length = n := by
  obtain ⟨r, hr, rfl⟩ := pop_eq_ok_iff.mp h
  obtain ⟨hsplit, hlength⟩ := contents_of_reserveRead hr
  exact ⟨hsplit, by rwa [Region.length_toList]⟩

end Dataflow.Fifo
