import Mathlib.Data.List.Forall2
import ExactInference.Arrange
import ExactInference.Event
import ExactInference.Proofs.Sequencing

/-!
# Computations that stay in step

One program that runs on related data ends in related answers or in one and the same fault, if every
part of it does. Lists are related item by item, and maps entry by entry under the same keys.
-/

namespace ExactInference

section Lists

variable {α β : Type} {R : α → β → Prop} {xs : List α} {ys : List β}

theorem forall₂_getElem? (h : List.Forall₂ R xs ys) (i : ℕ) : Option.Rel R xs[i]? ys[i]? := by
  induction h generalizing i with
  | nil => exact .none
  | cons hxy _ ih =>
    cases i with
    | zero => exact .some hxy
    | succ i => exact ih i

theorem forall₂_modify {f : α → α} {g : β → β} (hfg : ∀ x y, R x y → R (f x) (g y))
    (h : List.Forall₂ R xs ys) (i : ℕ) : List.Forall₂ R (xs.modify i f) (ys.modify i g) := by
  induction h generalizing i with
  | nil =>
    rw [List.modify_nil, List.modify_nil]
    exact .nil
  | cons hxy hrest ih =>
    cases i with
    | zero =>
      rw [List.modify_zero_cons, List.modify_zero_cons]
      exact .cons (hfg _ _ hxy) hrest
    | succ i =>
      rw [List.modify_succ_cons, List.modify_succ_cons]
      exact .cons hxy (ih i)

theorem forall₂_set (h : List.Forall₂ R xs ys) {x : α} {y : β} (hxy : R x y) (i : ℕ) :
    List.Forall₂ R (xs.set i x) (ys.set i y) := by
  rw [List.set_eq_modify, List.set_eq_modify]
  exact forall₂_modify (fun _ _ _ => hxy) h i

theorem forall₂_zipIdx (h : List.Forall₂ R xs ys) (n : ℕ) :
    List.Forall₂ (fun d e => R d.1 e.1 ∧ d.2 = e.2) (xs.zipIdx n) (ys.zipIdx n) := by
  induction h generalizing n with
  | nil => exact .nil
  | cons hxy _ ih =>
    rw [List.zipIdx_cons, List.zipIdx_cons]
    exact .cons ⟨hxy, rfl⟩ (ih (n + 1))

/-- Related lists are arranged alike, if their items compare alike. -/
theorem forall₂_arrange {before : α → α → Bool} {before' : β → β → Bool}
    (hbefore : ∀ {x y x' y'}, R x y → R x' y' → before x x' = before' y y')
    (h : List.Forall₂ R xs ys) : List.Forall₂ R (arrange before xs) (arrange before' ys) := by
  have hinsert : ∀ {x y xs ys}, R x y → List.Forall₂ R xs ys →
      List.Forall₂ R (insertInto before x xs) (insertInto before' y ys) := by
    intro x y xs ys hxy h
    induction h with
    | nil => exact .cons hxy .nil
    | cons hxy' hrest ih =>
      unfold insertInto
      rw [hbefore hxy hxy']
      split
      · exact .cons hxy (.cons hxy' hrest)
      · exact .cons hxy' ih
  induction h with
  | nil => exact .nil
  | cons hxy _ ih => exact hinsert hxy ih

/-- What is the same for related items is the same list for related lists. -/
theorem map_eq_of_forall₂ {γ : Type} {f : α → γ} {g : β → γ} (hfg : ∀ {x y}, R x y → f x = g y)
    (h : List.Forall₂ R xs ys) : xs.map f = ys.map g := by
  induction h with
  | nil => rfl
  | cons hxy _ ih => rw [List.map_cons, List.map_cons, hfg hxy, ih]

end Lists

theorem isSome_eq_of_rel {α β : Type} {R : α → β → Prop} {a : Option α} {b : Option β}
    (h : Option.Rel R a b) : a.isSome = b.isSome := by
  cases h <;> rfl

namespace OrderedMap

variable {κ α β : Type} {R : α → β → Prop} {m : OrderedMap κ α} {n : OrderedMap κ β}

/-- The same keys in the same order have related values. -/
def Related (R : α → β → Prop) (m : OrderedMap κ α) (n : OrderedMap κ β) : Prop :=
  List.Forall₂ (fun d e => d.1 = e.1 ∧ R d.2 e.2) m.entries n.entries

theorem related_empty : Related R (empty : OrderedMap κ α) (empty : OrderedMap κ β) := .nil

theorem Related.keys_eq (h : Related R m n) : m.keys = n.keys :=
  map_eq_of_forall₂ (fun hde => hde.1) h

theorem Related.values (h : Related R m n) : List.Forall₂ R m.values n.values :=
  List.rel_map (fun _ _ hde => hde.2) h

variable [BEq κ]

theorem Related.get? (h : Related R m n) (k : κ) : Option.Rel R (m.get? k) (n.get? k) := by
  obtain ⟨ds⟩ := m
  obtain ⟨es⟩ := n
  change Option.Rel R (find k ds) (find k es)
  induction (show List.Forall₂ _ ds es from h) with
  | nil => exact .none
  | @cons d e _ _ hde _ ih =>
    unfold find
    rw [hde.1]
    split
    · exact .some hde.2
    · exact ih ‹_›

theorem Related.contains_eq (h : Related R m n) (k : κ) : m.contains k = n.contains k :=
  isSome_eq_of_rel (h.get? k)

theorem Related.insert (h : Related R m n) (k : κ) {a : α} {b : β} (hab : R a b) :
    Related R (m.insert k a) (n.insert k b) := by
  obtain ⟨ds⟩ := m
  obtain ⟨es⟩ := n
  change List.Forall₂ _ (put k a ds) (put k b es)
  induction (show List.Forall₂ _ ds es from h) with
  | nil => exact .cons ⟨rfl, hab⟩ .nil
  | @cons d e _ _ hde hrest ih =>
    unfold put
    rw [hde.1]
    split
    · exact .cons ⟨rfl, hab⟩ hrest
    · exact .cons hde (ih ‹_›)

theorem related_ofList {ds : List (κ × α)} {es : List (κ × β)}
    (h : List.Forall₂ (fun d e => d.1 = e.1 ∧ R d.2 e.2) ds es) :
    Related R (ofList ds) (ofList es) :=
  List.rel_foldl (P := Related R)
    (fun _ _ hm d e hde => by
      rw [hde.1]
      exact hm.insert e.1 hde.2) related_empty h

end OrderedMap

section Except

variable {ε α β γ δ : Type}

/-- Two computations end in related answers, or in the same fault. -/
def Parallel (R : α → β → Prop) : Except ε α → Except ε β → Prop
  | .ok a, .ok b => R a b
  | .error e, .error e' => e = e'
  | _, _ => False

namespace Parallel

variable {R : α → β → Prop} {S : γ → δ → Prop} {x : Except ε α} {y : Except ε β}

theorem of_eq {x y : Except ε α} (h : x = y) : Parallel Eq x y := by
  subst h
  cases x <;> rfl

theorem eq {x y : Except ε α} (h : Parallel Eq x y) : x = y := by
  cases x <;> cases y
  · exact congrArg Except.error h
  · exact h.elim
  · exact h.elim
  · exact congrArg Except.ok h

theorem exists_of_ok (h : Parallel R x y) {a : α} (hx : x = .ok a) : ∃ b, y = .ok b ∧ R a b := by
  subst hx
  cases y
  · exact h.elim
  · exact ⟨_, rfl, h⟩

theorem imp {R' : α → β → Prop} (h : Parallel R x y) (himp : ∀ {a b}, R a b → R' a b) :
    Parallel R' x y := by
  cases x <;> cases y
  · exact h
  · exact h
  · exact h
  · exact himp h

theorem bind {f : α → Except ε γ} {g : β → Except ε δ} (h : Parallel R x y)
    (hfg : ∀ a b, R a b → Parallel S (f a) (g b)) : Parallel S (x >>= f) (y >>= g) := by
  cases x <;> cases y
  · exact h
  · exact h.elim
  · exact h.elim
  · exact hfg _ _ h

theorem map {f : α → γ} {g : β → δ} (h : Parallel R x y) (hfg : ∀ a b, R a b → S (f a) (g b)) :
    Parallel S (f <$> x) (g <$> y) := by
  cases x <;> cases y
  · exact h
  · exact h.elim
  · exact h.elim
  · exact hfg _ _ h

/-- Two computations with the same image have answers with the same image. -/
theorem of_map_eq {f : α → γ} {g : β → γ} (h : f <$> x = g <$> y) :
    Parallel (fun a b => f a = g b) x y := by
  cases x <;> cases y <;> injection h

theorem and {R' : α → β → Prop} (h : Parallel R x y)
    (h' : ∀ {a b}, x = .ok a → y = .ok b → R' a b) :
    Parallel (fun a b => R a b ∧ R' a b) x y := by
  cases x <;> cases y
  · exact h
  · exact h
  · exact h
  · exact ⟨h, h' rfl rfl⟩

theorem mapM {xs : List α} {ys : List β} {f : α → Except ε γ} {g : β → Except ε δ}
    (h : List.Forall₂ R xs ys) (hfg : ∀ a b, R a b → Parallel S (f a) (g b)) :
    Parallel (List.Forall₂ S) (xs.mapM f) (ys.mapM g) := by
  induction h with
  | nil => exact .nil
  | cons hxy _ ih =>
    rw [List.mapM_cons, List.mapM_cons]
    exact (hfg _ _ hxy).bind fun a b hab => ih.bind fun as bs habs => .cons hab habs

theorem foldlM {xs : List α} {ys : List β} {f : γ → α → Except ε γ} {g : δ → β → Except ε δ}
    (h : List.Forall₂ R xs ys)
    (hfg : ∀ {s t a b}, S s t → R a b → Parallel S (f s a) (g t b)) {s : γ} {t : δ}
    (hst : S s t) : Parallel S (xs.foldlM f s) (ys.foldlM g t) := by
  induction h generalizing s t with
  | nil => exact hst
  | cons hxy _ ih =>
    rw [List.foldlM_cons, List.foldlM_cons]
    exact (hfg hst hxy).bind fun s t hst => ih hst

/-- One list of items, each of which is computed with alike. -/
theorem mapM_same {xs : List α} {f : α → Except ε γ} {g : α → Except ε δ}
    (hfg : ∀ a, Parallel S (f a) (g a)) : Parallel (List.Forall₂ S) (xs.mapM f) (xs.mapM g) :=
  mapM (List.forall₂_same.2 fun _ _ => rfl) fun a _ hab => hab ▸ hfg a

/-- One list of items, each of which is taken in alike. -/
theorem foldlM_same {xs : List α} {f : γ → α → Except ε γ} {g : δ → α → Except ε δ}
    (hfg : ∀ {s t}, S s t → ∀ a, Parallel S (f s a) (g t a)) {s : γ} {t : δ} (hst : S s t) :
    Parallel S (xs.foldlM f s) (xs.foldlM g t) :=
  foldlM (R := Eq) (List.forall₂_same.2 fun _ _ => rfl)
    (fun {_ _ a _} hst hab => hab ▸ hfg hst a) hst

end Parallel

/-- Related lists have related elements at an index. -/
theorem parallel_elementAt {R : α → β → Prop} {xs : List α} {ys : List β}
    (h : List.Forall₂ R xs ys) (i : Int) : Parallel R (elementAt xs i) (elementAt ys i) := by
  unfold elementAt
  rw [h.length_eq]
  refine (Parallel.of_eq rfl).bind ?_
  rintro place _ rfl
  have hget := forall₂_getElem? h place
  generalize xs[place]? = a, ys[place]? = b at hget
  cases hget with
  | none => exact rfl
  | some hab => exact hab

end Except

namespace Traced

variable {α β γ δ : Type} {R : α → β → Prop} {S : γ → δ → Prop}

/-- Two computations report the same, and end in related answers or in the same fault. -/
structure InStep (R : α → β → Prop) (x : Traced α) (y : Traced β) : Prop where
  /-- They report the same. -/
  events_eq : x.events = y.events
  /-- They end alike. -/
  answers : Parallel R x.answer y.answer

theorem InStep.of_except {x : Except Fault α} {y : Except Fault β} (h : Parallel R x y) :
    InStep R (ofExcept x) (ofExcept y) := ⟨rfl, h⟩

theorem InStep.of_eq {x y : Traced α} (h : x = y) : InStep Eq x y := ⟨h ▸ rfl, .of_eq (h ▸ rfl)⟩

theorem InStep.pure {a : α} {b : β} (h : R a b) : InStep R (pure a) (pure b) := ⟨rfl, h⟩

theorem InStep.imp {R' : α → β → Prop} {x : Traced α} {y : Traced β} (h : InStep R x y)
    (himp : ∀ {a b}, R a b → R' a b) : InStep R' x y := ⟨h.events_eq, h.answers.imp himp⟩

theorem InStep.bind {x : Traced α} {y : Traced β} {f : α → Traced γ} {g : β → Traced δ}
    (h : InStep R x y) (hfg : ∀ a b, R a b → InStep S (f a) (g b)) :
    InStep S (x >>= f) (y >>= g) := by
  obtain ⟨xs, x⟩ := x
  obtain ⟨ys, y⟩ := y
  obtain ⟨hevents, hanswers⟩ := h
  cases hevents
  cases x <;> cases y
  · exact ⟨rfl, hanswers⟩
  · exact hanswers.elim
  · exact hanswers.elim
  · next a b =>
    have hab := hfg a b hanswers
    exact ⟨congrArg (xs ++ ·) hab.events_eq, hab.answers⟩

end Traced

end ExactInference
