/-!
# Maps that remember the order of arrival

Assignments, observed states, messages and counters are all shown in the order in which their keys
first arrived. An `OrderedMap` is that list of entries. Writing to a present key replaces its value
where it stands and keeps the key that is already there; writing to an absent key goes to the end.
The lemmas say what each operation does to look-ups and to the list of keys.
-/

namespace ExactInference

/-- A finite map whose entries stand in the order in which their keys first arrived. -/
structure OrderedMap (κ α : Type) where
  /-- The entries, oldest key first. -/
  entries : List (κ × α)
deriving Repr

namespace OrderedMap

variable {κ α β : Type}

/-- The map without entries. -/
def empty : OrderedMap κ α := ⟨[]⟩

instance : Inhabited (OrderedMap κ α) := ⟨empty⟩

/-- The keys, oldest first. -/
def keys (m : OrderedMap κ α) : List κ := m.entries.map Prod.fst

/-- The values, in the order of their keys. -/
def values (m : OrderedMap κ α) : List α := m.entries.map Prod.snd

/-- The number of entries. -/
def size (m : OrderedMap κ α) : Nat := m.entries.length

/-- Whether there are no entries. -/
def isEmpty (m : OrderedMap κ α) : Bool := m.entries.isEmpty

/-- Change every value and no key. -/
def mapValues (f : α → β) (m : OrderedMap κ α) : OrderedMap κ β :=
  ⟨m.entries.map fun e => (e.1, f e.2)⟩

variable [BEq κ]

/-- The value of the first entry for a key. -/
def find (k : κ) : List (κ × α) → Option α
  | [] => none
  | e :: rest => if e.1 == k then some e.2 else find k rest

/-- The value written last for a key. -/
def get? (m : OrderedMap κ α) (k : κ) : Option α := find k m.entries

/-- Whether a key has arrived. -/
def contains (m : OrderedMap κ α) (k : κ) : Bool := (m.get? k).isSome

/-- Replace the value of a present key, or append a new entry. -/
def put (k : κ) (v : α) : List (κ × α) → List (κ × α)
  | [] => [(k, v)]
  | e :: rest => if e.1 == k then (e.1, v) :: rest else e :: put k v rest

/-- Write a value under a key. -/
def insert (m : OrderedMap κ α) (k : κ) (v : α) : OrderedMap κ α := ⟨put k v m.entries⟩

/-- Forget a key. -/
def erase (m : OrderedMap κ α) (k : κ) : OrderedMap κ α :=
  ⟨m.entries.filter fun e => !(e.1 == k)⟩

/-- Write one entry after the other. -/
def insertAll (m : OrderedMap κ α) (es : List (κ × α)) : OrderedMap κ α :=
  es.foldl (fun m e => m.insert e.1 e.2) m

/-- The map that results from writing a list of entries, first entry first. -/
def ofList (es : List (κ × α)) : OrderedMap κ α := empty.insertAll es

@[simp] theorem get?_empty (k : κ) : (empty : OrderedMap κ α).get? k = none := rfl

theorem find_put_self [LawfulBEq κ] (k : κ) (v : α) (es : List (κ × α)) :
    find k (put k v es) = some v := by
  induction es with
  | nil => simp [put, find]
  | cons e rest ih =>
    by_cases h : e.1 = k
    · simp [put, find, h]
    · simp [put, find, h, ih]

theorem find_put_of_ne [LawfulBEq κ] {j k : κ} (h : j ≠ k) (v : α) (es : List (κ × α)) :
    find j (put k v es) = find j es := by
  induction es with
  | nil => simp [put, find, Ne.symm h]
  | cons e rest ih =>
    by_cases hk : e.1 = k
    · have hj : e.1 ≠ j := fun he => h (he.symm.trans hk)
      have hkj : k ≠ j := fun he => h he.symm
      simp [put, find, hk, hkj]
    · simp [put, find, hk, ih]

/-- The value written last is the one that is found. -/
@[simp] theorem get?_insert_self [LawfulBEq κ] (m : OrderedMap κ α) (k : κ) (v : α) :
    (m.insert k v).get? k = some v := find_put_self k v m.entries

/-- Writing under one key leaves every other key alone. -/
theorem get?_insert_of_ne [LawfulBEq κ] (m : OrderedMap κ α) {j k : κ} (h : j ≠ k) (v : α) :
    (m.insert k v).get? j = m.get? j := find_put_of_ne h v m.entries

theorem find_isSome_iff [LawfulBEq κ] (k : κ) (es : List (κ × α)) :
    (find k es).isSome = true ↔ k ∈ es.map Prod.fst := by
  induction es with
  | nil => simp [find]
  | cons e rest ih =>
    by_cases h : e.1 = k
    · simp [find, h]
    · simp only [find, beq_iff_eq, h, if_false, List.map_cons, List.mem_cons, ih]
      constructor
      · exact Or.inr
      · rintro (he | hm)
        · exact absurd he.symm h
        · exact hm

/-- A key is contained exactly if it is listed. -/
theorem contains_iff_mem_keys [LawfulBEq κ] (m : OrderedMap κ α) (k : κ) :
    m.contains k = true ↔ k ∈ m.keys := find_isSome_iff k m.entries

theorem mem_keys_of_get? [LawfulBEq κ] {m : OrderedMap κ α} {k : κ} {v : α}
    (h : m.get? k = some v) : k ∈ m.keys :=
  (contains_iff_mem_keys m k).1 (by rw [contains, h]; rfl)

theorem exists_get?_of_mem_keys [LawfulBEq κ] {m : OrderedMap κ α} {k : κ} (h : k ∈ m.keys) :
    ∃ v, m.get? k = some v :=
  Option.isSome_iff_exists.1 ((contains_iff_mem_keys m k).2 h)

theorem map_fst_put [LawfulBEq κ] (k : κ) (v : α) (es : List (κ × α)) :
    (put k v es).map Prod.fst
      = if k ∈ es.map Prod.fst then es.map Prod.fst else es.map Prod.fst ++ [k] := by
  induction es with
  | nil => simp [put]
  | cons e rest ih =>
    by_cases h : e.1 = k
    · simp [put, h]
    · have hk : k ≠ e.1 := fun he => h he.symm
      simp only [put, beq_iff_eq, h, if_false, List.map_cons, ih, List.mem_cons, hk, false_or]
      split <;> simp

/-- A new key goes to the end and a present key moves nothing. -/
theorem keys_insert [LawfulBEq κ] (m : OrderedMap κ α) (k : κ) (v : α) :
    (m.insert k v).keys = if k ∈ m.keys then m.keys else m.keys ++ [k] :=
  map_fst_put k v m.entries

theorem mem_keys_insert [LawfulBEq κ] {m : OrderedMap κ α} {j k : κ} {v : α} :
    j ∈ (m.insert k v).keys ↔ j ∈ m.keys ∨ j = k := by
  rw [keys_insert]
  split
  · next hk => exact ⟨Or.inl, fun h => h.elim id fun he => he ▸ hk⟩
  · simp

/-- In a map that lists every key once, the entries are what is found. -/
theorem mem_entries_iff [LawfulBEq κ] {m : OrderedMap κ α} (h : m.keys.Nodup) {k : κ} {v : α} :
    (k, v) ∈ m.entries ↔ m.get? k = some v := by
  have hfind : ∀ es : List (κ × α), (es.map Prod.fst).Nodup →
      ((k, v) ∈ es ↔ find k es = some v) := by
    intro es
    induction es with
    | nil => simp [find]
    | cons e rest ih =>
      intro hnodup
      obtain ⟨hout, hrest⟩ := List.nodup_cons.1 hnodup
      by_cases he : e.1 = k
      · have hk : (k, v) ∉ rest := fun hin => hout (he ▸ List.mem_map_of_mem hin)
        simp only [List.mem_cons, hk, or_false, find, he, beq_self_eq_true, if_true,
          Option.some.injEq]
        exact ⟨fun hkv => hkv ▸ rfl, fun hv => Prod.ext he.symm hv.symm⟩
      · have hne : (k, v) ≠ e := fun hkv => he (hkv ▸ rfl)
        simp only [List.mem_cons, hne, false_or, ih hrest, find, beq_iff_eq, he, if_false]
  exact hfind m.entries h

/-- Every key is listed once. -/
theorem nodup_keys_insert [LawfulBEq κ] {m : OrderedMap κ α} (h : m.keys.Nodup) (k : κ) (v : α) :
    (m.insert k v).keys.Nodup := by
  rw [keys_insert]
  split
  · exact h
  · next hk =>
    exact List.nodup_append.2
      ⟨h, by simp, fun j hj l hl he => hk (List.mem_singleton.1 hl ▸ he ▸ hj)⟩

theorem mem_keys_insertAll [LawfulBEq κ] {m : OrderedMap κ α} {es : List (κ × α)} {j : κ} :
    j ∈ (m.insertAll es).keys ↔ j ∈ m.keys ∨ j ∈ es.map Prod.fst := by
  induction es generalizing m with
  | nil => simp [insertAll]
  | cons e es ih =>
    change j ∈ ((m.insert e.1 e.2).insertAll es).keys ↔ _
    rw [ih, mem_keys_insert, List.map_cons, List.mem_cons, or_assoc]

/-- Writing entries leaves every other key alone. -/
theorem get?_insertAll_of_notMem [LawfulBEq κ] {m : OrderedMap κ α} {es : List (κ × α)} {j : κ}
    (h : j ∉ es.map Prod.fst) : (m.insertAll es).get? j = m.get? j := by
  induction es generalizing m with
  | nil => rfl
  | cons e es ih =>
    rw [List.map_cons, List.mem_cons, not_or] at h
    change ((m.insert e.1 e.2).insertAll es).get? j = _
    rw [ih h.2, get?_insert_of_ne m h.1]

/-- What is found after writing entries was there before, or is one of them. -/
theorem get?_of_insertAll [LawfulBEq κ] {m : OrderedMap κ α} {es : List (κ × α)} {j : κ} {v : α}
    (h : (m.insertAll es).get? j = some v) : m.get? j = some v ∨ (j, v) ∈ es := by
  induction es generalizing m with
  | nil => exact Or.inl h
  | cons e es ih =>
    rcases ih h with hfound | hin
    · by_cases hj : j = e.1
      · subst hj
        rw [get?_insert_self] at hfound
        cases hfound
        exact Or.inr List.mem_cons_self
      · rw [get?_insert_of_ne m hj] at hfound
        exact Or.inl hfound
    · exact Or.inr (List.mem_cons_of_mem e hin)

/-- Writing one value for each of some keys. -/
theorem get?_insertAll_of_mem [LawfulBEq κ] {m : OrderedMap κ α} {f : κ → α} {ks : List κ} {j : κ}
    (h : j ∈ ks) : (m.insertAll (ks.map fun k => (k, f k))).get? j = some (f j) := by
  induction ks generalizing m with
  | nil => simp at h
  | cons k ks ih =>
    change ((m.insert k (f k)).insertAll (ks.map fun k => (k, f k))).get? j = _
    by_cases hj : j ∈ ks
    · exact ih hj
    · have hjk : j = k := (List.mem_cons.1 h).resolve_right hj
      subst hjk
      have hkeys : j ∉ (ks.map fun k => (k, f k)).map Prod.fst := by
        rw [List.map_map]
        simpa [Function.comp_def] using hj
      rw [get?_insertAll_of_notMem hkeys, get?_insert_self]

/-- A key that differs from all others goes to the end. -/
theorem put_eq_append {k : κ} {v : α} {es : List (κ × α)} (h : ∀ e ∈ es, (e.1 == k) = false) :
    put k v es = es ++ [(k, v)] := by
  induction es with
  | nil => rfl
  | cons e rest ih =>
    have hk := h e List.mem_cons_self
    simp only [put, hk, Bool.false_eq_true, if_false, List.cons_append,
      ih fun e he => h e (List.mem_cons_of_mem _ he)]

/-- Entries with different keys are listed as they were written. -/
theorem entries_ofList {es : List (κ × α)}
    (h : es.Pairwise fun d e => (d.1 == e.1) = false) : (ofList es).entries = es := by
  have happend : ∀ (es : List (κ × α)) (m : OrderedMap κ α),
      (m.entries ++ es).Pairwise (fun d e => (d.1 == e.1) = false) →
      (m.insertAll es).entries = m.entries ++ es := by
    intro es
    induction es with
    | nil => intro m _; simp [insertAll]
    | cons e es ih =>
      intro m hm
      have hput : (m.insert e.1 e.2).entries = m.entries ++ [e] := put_eq_append fun d hd =>
        (List.pairwise_append.1 hm).2.2 d hd e List.mem_cons_self
      have hrest := ih (m.insert e.1 e.2) (by rw [hput, List.append_assoc]; exact hm)
      rw [hput, List.append_assoc] at hrest
      exact hrest
  exact happend es empty h

end OrderedMap

end ExactInference
