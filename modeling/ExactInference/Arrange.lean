/-!
# Stable arrangement

Lists are arranged by inserting their elements one by one, from the last to the first, each before
the first element that it may stand before. Elements that may stand either way keep their order.
The lemmas say that nothing is lost or added, and that the result is in order if the comparison is
total and transitive.
-/

namespace ExactInference

variable {α : Type}

/-- Insert an element before the first one that it may stand before. -/
def insertInto (before : α → α → Bool) (x : α) : List α → List α
  | [] => [x]
  | y :: ys => if before x y then x :: y :: ys else y :: insertInto before x ys

/-- Arrange a list so that every element may stand before the next one. -/
def arrange (before : α → α → Bool) : List α → List α
  | [] => []
  | x :: xs => insertInto before x (arrange before xs)

theorem insertInto_perm (before : α → α → Bool) (x : α) (ys : List α) :
    (insertInto before x ys).Perm (x :: ys) := by
  induction ys with
  | nil => exact List.Perm.refl _
  | cons y ys ih =>
    by_cases h : before x y = true
    · simp [insertInto, h]
    · simp only [insertInto, h]
      exact (ih.cons y).trans (List.Perm.swap x y ys)

/-- Arranging loses and adds nothing. -/
theorem arrange_perm (before : α → α → Bool) (xs : List α) : (arrange before xs).Perm xs := by
  induction xs with
  | nil => exact List.Perm.refl _
  | cons x xs ih => exact (insertInto_perm before x _).trans (ih.cons x)

@[simp] theorem mem_arrange (before : α → α → Bool) (xs : List α) (x : α) :
    x ∈ arrange before xs ↔ x ∈ xs := (arrange_perm before xs).mem_iff

@[simp] theorem length_arrange (before : α → α → Bool) (xs : List α) :
    (arrange before xs).length = xs.length := (arrange_perm before xs).length_eq

theorem insertInto_pairwise {before : α → α → Bool}
    (total : ∀ a b, before a b = true ∨ before b a = true)
    (trans : ∀ a b c, before a b = true → before b c = true → before a c = true)
    (x : α) {ys : List α} (h : ys.Pairwise fun a b => before a b = true) :
    (insertInto before x ys).Pairwise fun a b => before a b = true := by
  induction ys with
  | nil => simp [insertInto]
  | cons y ys ih =>
    obtain ⟨hy, hys⟩ := List.pairwise_cons.1 h
    by_cases hxy : before x y = true
    · simp only [insertInto, hxy, if_true]
      refine List.pairwise_cons.2 ⟨fun z hz => ?_, h⟩
      rcases List.mem_cons.1 hz with rfl | hz
      · exact hxy
      · exact trans x y z hxy (hy z hz)
    · simp only [insertInto, hxy]
      refine List.pairwise_cons.2 ⟨fun z hz => ?_, ih hys⟩
      rcases List.mem_cons.1 ((insertInto_perm before x ys).mem_iff.1 hz) with rfl | hz
      · exact (total y z).resolve_right hxy
      · exact hy z hz

/-- An arranged list is in order. -/
theorem arrange_pairwise {before : α → α → Bool}
    (total : ∀ a b, before a b = true ∨ before b a = true)
    (trans : ∀ a b c, before a b = true → before b c = true → before a c = true) (xs : List α) :
    (arrange before xs).Pairwise fun a b => before a b = true := by
  induction xs with
  | nil => exact List.Pairwise.nil
  | cons x xs ih => exact insertInto_pairwise total trans x ih

/-- Whole numbers in ascending order. -/
def ascending (ns : List Int) : List Int := arrange (fun a b => decide (a ≤ b)) ns

/-- Names in ascending order of their code points. -/
def alphabetical (names : List String) : List String := arrange (fun a b => decide (a ≤ b)) names

end ExactInference
