import ExactInference.Scope
import ExactInference.Weight.Scale

/-!
# Rectangular arrays

A rectangular array has a length for every axis and its entries in row-major order; it knows no
names. Two arrays are combined entry by entry once their axes are aligned. For that the axes of an
array are put in another order, axes of the length one are inserted, and an axis of the length one
is stretched to what the other array has there. The main statements say which entry each of these
finds at an index: an inserted axis leaves all entries at their places, and an axis in another
place is looked up where the order puts it.
-/

namespace ExactInference

/-- The number of entries of an array, from the lengths of its axes. -/
def entryCount : List Nat → Nat
  | [] => 1
  | length :: rest => length * entryCount rest

/-- The indices of an array in row-major order. An axis is not walked along if a later one has no
entries. -/
def indices : List Nat → List (List Nat)
  | [] => [[]]
  | length :: rest =>
    if entryCount rest = 0 then []
    else (List.range length).flatMap fun i => (indices rest).map (i :: ·)

/-- The row-major offset of an index. -/
def offset : List Nat → List Nat → Nat
  | _ :: rest, i :: is => i * entryCount rest + offset rest is
  | _, _ => 0

theorem length_indices (shape : List Nat) : (indices shape).length = entryCount shape := by
  induction shape with
  | nil => rfl
  | cons length rest ih =>
    by_cases h : entryCount rest = 0
    · simp [indices, entryCount, h]
    · simp only [indices, h, if_false]
      exact length_flatMap_range _ _ (fun i => by rw [List.length_map, ih]) length

/-- The indices over one more axis are those at each of its places, place after place. -/
theorem indices_cons (length : Nat) (rest : List Nat) :
    indices (length :: rest)
      = (List.range length).flatMap fun i => (indices rest).map (i :: ·) := by
  by_cases h : entryCount rest = 0
  · have hnone : indices rest = [] := List.eq_nil_of_length_eq_zero (by rw [length_indices, h])
    simp [indices, h, hnone]
  · simp [indices, h]

/-- An index stands at its offset in the enumeration. -/
theorem getElem?_indices {shape index : List Nat} (h : index ∈ indices shape) :
    (indices shape)[offset shape index]? = some index := by
  induction shape generalizing index with
  | nil =>
    obtain rfl : index = [] := by simpa [indices] using h
    rfl
  | cons length rest ih =>
    rw [indices_cons] at h ⊢
    obtain ⟨i, hi, hmem⟩ := List.mem_flatMap.1 h
    obtain ⟨is, his, rfl⟩ := List.mem_map.1 hmem
    have hlt : offset rest is < entryCount rest := by
      rw [← length_indices]
      exact (List.getElem?_eq_some_iff.1 (ih his)).1
    change ((List.range length).flatMap _)[i * entryCount rest + offset rest is]? = _
    rw [getElem?_flatMap_range _ (entryCount rest)
      (fun i => by rw [List.length_map, length_indices]) (List.mem_range.1 hi) hlt,
      List.getElem?_map, ih his]
    rfl

/-- The places of several axes are an index of an array, if each is within the length there. -/
theorem map_mem_indices {γ : Type} {place length : γ → Nat} {axes : List γ}
    (h : ∀ a ∈ axes, place a < length a) : axes.map place ∈ indices (axes.map length) := by
  induction axes with
  | nil => exact List.mem_singleton.2 rfl
  | cons a rest ih =>
    rw [List.map_cons, List.map_cons, indices_cons]
    refine List.mem_flatMap.2 ⟨place a, List.mem_range.2 (h a List.mem_cons_self), ?_⟩
    exact List.mem_map_of_mem (ih fun b hb => h b (List.mem_cons_of_mem a hb))

/-- An axis of the length one adds no entries. -/
theorem entryCount_insertIdx (axis : Nat) (shape : List Nat) :
    entryCount (shape.insertIdx axis 1) = entryCount shape := by
  induction axis generalizing shape with
  | zero => simp [entryCount]
  | succ axis ih =>
    cases shape with
    | nil => rfl
    | cons length rest => simp [entryCount, ih]

/-- An axis of the length one moves no entry. -/
theorem offset_insertIdx (axis : Nat) (shape index : List Nat) :
    offset (shape.insertIdx axis 1) (index.insertIdx axis 0) = offset shape index := by
  induction axis generalizing shape index with
  | zero => simp [offset]
  | succ axis ih =>
    cases shape with
    | nil => rfl
    | cons length rest =>
      cases index with
      | nil => rfl
      | cons i is => simp [offset, ih, entryCount_insertIdx]

/-- The lengths that the axes of two arrays have together. Two lengths fit if they are equal or if
one of them is one, which is stretched then. The arrays must have equally many axes. -/
def stretched? : List Nat → List Nat → Option (List Nat)
  | [], [] => some []
  | m :: ms, n :: ns =>
    if m = n ∨ n = 1 then (m :: ·) <$> stretched? ms ns
    else if m = 1 then (n :: ·) <$> stretched? ms ns
    else none
  | _, _ => none

/-- Axes fit if at each of them one array has the common length and the other one has it too or has
the length one. -/
theorem stretched?_map {γ : Type} {left right length : γ → Nat} {axes : List γ}
    (h : ∀ a ∈ axes, (left a = length a ∧ (right a = length a ∨ right a = 1)) ∨
      (left a = 1 ∧ right a = length a)) :
    stretched? (axes.map left) (axes.map right) = some (axes.map length) := by
  induction axes with
  | nil => rfl
  | cons a rest ih =>
    have hrest := ih fun b hb => h b (List.mem_cons_of_mem a hb)
    simp only [List.map_cons, stretched?, hrest, Option.map_eq_map, Option.map_some]
    rcases h a List.mem_cons_self with ⟨hl, hr | hr⟩ | ⟨hl, hr⟩
    · simp [hl, hr]
    · simp [hl, hr]
    · rw [hl, hr]
      split
      next hone => rw [hone.elim id Eq.symm]
      next => rfl

/-- The index at which an array is read when it is stretched: an axis of the length one is read at
its only place. -/
def pinned (shape index : List Nat) : List Nat :=
  List.zipWith (fun length i => if length = 1 then 0 else i) shape index

/-- A rectangular array. -/
structure Grid (α : Type) where
  /-- The lengths of the axes. -/
  shape : List Nat
  /-- The entries in row-major order. -/
  entries : Array α
  /-- There is one entry for every index. -/
  entries_size : entries.size = entryCount shape

namespace Grid

variable {α : Type}

/-- The array with a given entry at every index. -/
def build (shape : List Nat) (f : List Nat → α) : Grid α where
  shape := shape
  entries := ((indices shape).map f).toArray
  entries_size := by simp [length_indices]

variable [WeightScale α]

/-- The entry at an index. -/
def entry (g : Grid α) (index : List Nat) : α :=
  g.entries.getD (offset g.shape index) WeightScale.zero

/-- An array that is built from its entries has them at its indices. -/
theorem entry_build {shape index : List Nat} (f : List Nat → α) (h : index ∈ indices shape) :
    (build shape f).entry index = f index := by
  simp [entry, build, Array.getD_eq_getD_getElem?, getElem?_indices h]

/-- The array with its axes in another order, in which `axes` lists each of them once. An index of
the result has the place on an axis of `g` where the order puts that axis. -/
def transpose (g : Grid α) (axes : List Nat) : Grid α :=
  build (axes.map fun axis => g.shape.getD axis 0) fun index =>
    g.entry ((List.range g.shape.length).map fun axis => index.getD (axes.idxOf axis) 0)

/-- The array with one more axis of the length one, at a place among the axes or right after them.
-/
def insertAxis (g : Grid α) (axis : Nat) : Grid α where
  shape := g.shape.insertIdx axis 1
  entries := g.entries
  entries_size := by rw [entryCount_insertIdx, g.entries_size]

omit [WeightScale α] in
/-- Axes that are inserted one after the other are inserted into the lengths one after the other. -/
theorem shape_foldl_insertAxis (axes : List Nat) (g : Grid α) :
    (axes.foldl insertAxis g).shape
      = axes.foldl (fun shape axis => shape.insertIdx axis 1) g.shape := by
  induction axes generalizing g with
  | nil => rfl
  | cons axis axes ih => exact ih (g.insertAxis axis)

/-- Every entry is found at its old index with the place zero inserted at each new axis. -/
theorem entry_foldl_insertAxis (axes : List Nat) (g : Grid α) (index : List Nat) :
    (axes.foldl insertAxis g).entry (axes.foldl (fun is axis => is.insertIdx axis 0) index)
      = g.entry index := by
  induction axes generalizing g index with
  | nil => rfl
  | cons axis axes ih =>
    refine (ih (g.insertAxis axis) (index.insertIdx axis 0)).trans ?_
    simp only [entry, insertAxis, offset_insertIdx]

/-- Two arrays, combined entry by entry. Each is read with its axes of the length one stretched. -/
def combine (f : α → α → α) (g h : Grid α) {shape : List Nat}
    (_fits : stretched? g.shape h.shape = some shape) : Grid α :=
  build shape fun index => f (g.entry (pinned g.shape index)) (h.entry (pinned h.shape index))

end Grid

end ExactInference
