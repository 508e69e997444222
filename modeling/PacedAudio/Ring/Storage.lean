/-
# PacedAudio.Ring.Storage — bytes in a circle

A ring keeps its bytes in the front part of a fixed block of storage, and a run of bytes that
reaches the end of that part goes on at its start. A run therefore lies in at most two *stretches*
of storage: one from where it begins up to the end of the part in use, and one from index zero
with the rest. `storeAround` and `loadAround` copy a run into and out of its two stretches.
-/

namespace PacedAudio

/-- A block of `n` bytes. -/
abbrev Storage (n : Nat) := Vector UInt8 n

/-- Some consecutive bytes of storage. -/
structure Stretch where
  start : Nat
  length : Nat
deriving DecidableEq, Repr

/-- The stretch ends at or before index `limit`. -/
def Stretch.Within (s : Stretch) (limit : Nat) : Prop := s.start + s.length ≤ limit

/-- The two stretches of a run of `length` bytes, in a circle of `capacity` bytes, that begins where
`cursor` points. -/
def stretches (capacity cursor length : Nat) : Stretch × Stretch :=
  let start := cursor % capacity
  let first := min length (capacity - start)
  (⟨start, first⟩, ⟨0, length - first⟩)

namespace Storage

variable {n : Nat}

/-- A block of zeros. -/
def blank (n : Nat) : Storage n := Vector.replicate n 0

/-- The byte at an index; there is nothing but zeros past the end. -/
def byte (s : Storage n) (index : Nat) : UInt8 := s[index]?.getD 0

/-- Stores bytes from `start` on; what would lie past the end is dropped. -/
def store (s : Storage n) (start : Nat) : List UInt8 → Storage n
  | [] => s
  | b :: rest => store (s.setIfInBounds start b) (start + 1) rest

/-- The bytes of a stretch. -/
def load (s : Storage n) (stretch : Stretch) : List UInt8 :=
  (List.range' stretch.start stretch.length).map (byte s)

/-- Stores a run in a circle of `capacity` bytes. -/
def storeAround (s : Storage n) (capacity cursor : Nat) (bytes : List UInt8) : Storage n :=
  let (first, second) := stretches capacity cursor bytes.length
  store (store s first.start (bytes.take first.length)) second.start (bytes.drop first.length)

/-- Loads a run from a circle of `capacity` bytes. -/
def loadAround (s : Storage n) (capacity cursor length : Nat) : List UInt8 :=
  let (first, second) := stretches capacity cursor length
  load s first ++ load s second

end Storage

/-! ## Where a run lies -/

theorem stretches_length (capacity cursor length : Nat) :
    (stretches capacity cursor length).1.length + (stretches capacity cursor length).2.length
      = length := by
  simp only [stretches]
  omega

/-- The first stretch stays inside the circle. -/
theorem stretches_fst_within {capacity : Nat} (cursor length : Nat) (h : 0 < capacity) :
    (stretches capacity cursor length).1.Within capacity := by
  have hlt := Nat.mod_lt cursor h
  simp only [stretches, Stretch.Within]
  omega

/-- The second stretch stays inside the circle if the run goes around it at most once more after
its end. -/
theorem stretches_snd_within_iff {capacity : Nat} (cursor length : Nat) (h : 0 < capacity) :
    (stretches capacity cursor length).2.Within capacity
      ↔ cursor % capacity + length ≤ 2 * capacity := by
  have hlt := Nat.mod_lt cursor h
  simp only [stretches, Stretch.Within]
  omega

namespace Storage

variable {n : Nat}

/-! ## What is stored where -/

@[simp] theorem byte_blank (index : Nat) : byte (blank n) index = 0 := by
  simp only [byte, blank, Vector.getElem?_replicate]
  split <;> rfl

theorem byte_setIfInBounds (s : Storage n) (index other : Nat) (b : UInt8) :
    byte (s.setIfInBounds index b) other
      = if index = other ∧ other < n then b else byte s other := by
  simp only [byte, Vector.getElem?_setIfInBounds]
  by_cases h : index = other
  · subst h
    by_cases hn : index < n <;> simp [hn]
  · simp [h]

/-- A byte that is not stored over stays. -/
theorem byte_store_of_not_mem (s : Storage n) (start : Nat) (bytes : List UInt8) {index : Nat}
    (h : index < start ∨ start + bytes.length ≤ index) :
    byte (store s start bytes) index = byte s index := by
  induction bytes generalizing s start with
  | nil => rfl
  | cons b rest ih =>
    simp only [List.length_cons] at h
    rw [store, ih _ _ (by omega), byte_setIfInBounds, if_neg (by omega)]

/-- A byte that is stored is found where it was put. -/
theorem byte_store_of_mem (s : Storage n) (start : Nat) (bytes : List UInt8) {i : Nat}
    (h : i < bytes.length) (hn : start + i < n) :
    byte (store s start bytes) (start + i) = bytes[i] := by
  induction bytes generalizing s start i with
  | nil => simp at h
  | cons b rest ih =>
    rw [store]
    cases i with
    | zero =>
      rw [byte_store_of_not_mem _ _ _ (Or.inl (by omega)), byte_setIfInBounds, if_pos (by omega)]
      rfl
    | succ i =>
      simp only [List.length_cons, Nat.add_lt_add_iff_right] at h
      have hi := ih (s.setIfInBounds start b) (start + 1) h (by omega)
      rw [show start + 1 + i = start + (i + 1) by omega] at hi
      rw [hi]
      rfl

@[simp] theorem length_load (s : Storage n) (stretch : Stretch) :
    (load s stretch).length = stretch.length := by
  simp [load]

@[simp] theorem length_loadAround (s : Storage n) (capacity cursor length : Nat) :
    (loadAround s capacity cursor length).length = length := by
  simp only [loadAround, List.length_append, length_load]
  exact stretches_length capacity cursor length

/-! ## Where the bytes of a run lie -/

/-- The index of the byte `i` places after the one a cursor points to, in a circle of `capacity`
bytes. -/
def index (capacity cursor i : Nat) : Nat := (cursor + i) % capacity

/-- The circle is crossed at most once by a run that fits it. -/
theorem index_eq {capacity : Nat} (h : 0 < capacity) (cursor : Nat) {i : Nat} (hi : i < capacity) :
    index capacity cursor i
      = if cursor % capacity + i < capacity then cursor % capacity + i
        else cursor % capacity + i - capacity := by
  have hlt := Nat.mod_lt cursor h
  rw [index, ← Nat.mod_add_mod]
  split
  · next hin => exact Nat.mod_eq_of_lt hin
  · next hout =>
    rw [Nat.mod_eq_sub_mod (Nat.not_lt.mp hout)]
    exact Nat.mod_eq_of_lt (by omega)

/-- Two bytes of a run that fits the circle lie in different places. -/
theorem index_inj {capacity : Nat} (h : 0 < capacity) (cursor : Nat) {i j : Nat}
    (hi : i < capacity) (hj : j < capacity)
    (heq : index capacity cursor i = index capacity cursor j) : i = j := by
  have hlt := Nat.mod_lt cursor h
  rw [index_eq h cursor hi, index_eq h cursor hj] at heq
  split at heq <;> split at heq <;> omega

/-- A run that fits the circle is loaded byte by byte. -/
theorem loadAround_eq (s : Storage n) {capacity : Nat} (h : 0 < capacity) (cursor : Nat)
    {length : Nat} (hlength : length ≤ capacity) :
    loadAround s capacity cursor length
      = (List.range length).map fun i => byte s (index capacity cursor i) := by
  have hlt := Nat.mod_lt cursor h
  apply List.ext_getElem
  · simp
  · intro i h₁ h₂
    have hi : i < length := by simpa using h₁
    simp only [List.getElem_map, List.getElem_range,
      index_eq h cursor (Nat.lt_of_lt_of_le hi hlength)]
    simp only [loadAround, stretches, load, List.getElem_append, List.length_map,
      List.length_range', List.getElem_map, List.getElem_range']
    split
    · next hfirst => rw [if_pos (by omega), Nat.one_mul]
    · next hfirst =>
      rw [if_neg (by omega)]
      congr 1
      omega

/-- The bytes of a run are stored where a run is loaded from. -/
theorem byte_storeAround_of_lt (s : Storage n) {capacity : Nat} (h : 0 < capacity)
    (hn : capacity ≤ n) (cursor : Nat) (bytes : List UInt8) (hlength : bytes.length ≤ capacity)
    {i : Nat} (hi : i < bytes.length) :
    byte (storeAround s capacity cursor bytes) (index capacity cursor i) = bytes[i] := by
  have hlt := Nat.mod_lt cursor h
  rw [index_eq h cursor (Nat.lt_of_lt_of_le hi hlength)]
  simp only [storeAround, stretches]
  split
  · next hin =>
    rw [byte_store_of_not_mem _ _ _ (Or.inr (by simp only [List.length_drop]; omega)),
      byte_store_of_mem _ _ _ (by simp only [List.length_take]; omega) (by omega)]
    exact List.getElem_take
  · next hout =>
    have hplace : cursor % capacity + i - capacity
        = 0 + (i - min bytes.length (capacity - cursor % capacity)) := by omega
    rw [hplace, byte_store_of_mem _ _ _ (by simp only [List.length_drop]; omega) (by omega),
      List.getElem_drop]
    congr 1
    omega

/-- A byte outside a run is not stored over. -/
theorem byte_storeAround_of_ne (s : Storage n) {capacity : Nat} (h : 0 < capacity) (cursor : Nat)
    (bytes : List UInt8) (hlength : bytes.length ≤ capacity) {place : Nat}
    (hplace : ∀ i, i < bytes.length → index capacity cursor i ≠ place) :
    byte (storeAround s capacity cursor bytes) place = byte s place := by
  have hlt := Nat.mod_lt cursor h
  have hne : ∀ i, i < bytes.length →
      (if cursor % capacity + i < capacity then cursor % capacity + i
        else cursor % capacity + i - capacity) ≠ place := fun i hi =>
    index_eq h cursor (Nat.lt_of_lt_of_le hi hlength) ▸ hplace i hi
  simp only [storeAround, stretches]
  rw [byte_store_of_not_mem _ _ _ ?_, byte_store_of_not_mem _ _ _ ?_]
  · simp only [List.length_take]
    refine Decidable.byContradiction fun hin => hne (place - cursor % capacity) (by omega) ?_
    rw [if_pos (by omega)]
    omega
  · simp only [List.length_drop]
    refine Decidable.byContradiction fun hin =>
      hne (place + capacity - cursor % capacity) (by omega) ?_
    rw [if_neg (by omega)]
    omega

end Storage

end PacedAudio
