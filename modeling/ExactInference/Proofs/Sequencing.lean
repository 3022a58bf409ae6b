import Mathlib.Data.List.Forall2
import ExactInference.CliqueTree.Passing

/-!
# Runs of computations that may fail

A list of computations is run until one of them fails. These lemmas say when all of them succeed,
what they answer then, and which fault remains otherwise. Computations that each end in an answer
or in an expected fault do so one after the other as well. Steps of message passing are run in the
same way, but they keep their state when they fail.
-/

namespace ExactInference

section Pairs

variable {α β : Type} {R : α → β → Prop} {xs : List α} {ys : List β}

/-- In two lists related item by item every first item has a partner. -/
theorem exists_of_forall₂_left (h : List.Forall₂ R xs ys) {x : α} (hx : x ∈ xs) :
    ∃ y ∈ ys, R x y := by
  obtain ⟨i, hi, rfl⟩ := List.getElem_of_mem hx
  have hy : i < ys.length := by rwa [← h.length_eq]
  exact ⟨ys[i], List.getElem_mem hy, h.get hi hy⟩

/-- In two lists related item by item every second item has a partner. -/
theorem exists_of_forall₂_right (h : List.Forall₂ R xs ys) {y : β} (hy : y ∈ ys) :
    ∃ x ∈ xs, R x y := by
  obtain ⟨x, hx, hxy⟩ := exists_of_forall₂_left h.flip hy
  exact ⟨x, hx, hxy⟩

end Pairs

/-- The element at a natural index. -/
theorem elementAt_eq_ok {α : Type} {xs : List α} {i : ℕ} {x : α} (h : xs[i]? = some x) :
    elementAt xs (i : Int) = .ok x := by
  obtain ⟨hi, rfl⟩ := List.getElem?_eq_some_iff.1 h
  exact elementAt_natCast hi

section Except

variable {ε α β σ : Type}

/-- A sequence ends in an answer if both parts do. -/
theorem bind_eq_ok_iff {x : Except ε α} {f : α → Except ε β} {b : β} :
    x >>= f = .ok b ↔ ∃ a, x = .ok a ∧ f a = .ok b := by
  cases x with
  | error e => simp [bind, Except.bind]
  | ok a => simp [bind, Except.bind]

/-- A changed answer is an answer that was changed. -/
theorem map_eq_ok_iff {x : Except ε α} {f : α → β} {b : β} :
    f <$> x = .ok b ↔ ∃ a, x = .ok a ∧ f a = b := by
  cases x with
  | error e => simp [Functor.map, Except.map]
  | ok a => simp [Functor.map, Except.map]

/-- There is only an answer after a refusal if what is refused is not the case. -/
theorem refuse_eq_ok_iff {c : Prop} [Decidable c] {e : ε} {f : PUnit → Except ε β} {b : β} :
    (if c then throw e >>= f else f ⟨⟩) = .ok b ↔ ¬ c ∧ f ⟨⟩ = .ok b := by
  by_cases h : c
  · simp [h, throw, throwThe, MonadExceptOf.throw, bind, Except.bind]
  · simp [h]

theorem exists_of_toBool {x : Except ε α} (h : x.toBool = true) : ∃ a, x = .ok a := by
  cases x with
  | error e => cases h
  | ok a => exact ⟨a, rfl⟩

/-- Whether there is an answer and it passes a check. -/
def passes (check : α → Bool) : Except ε α → Bool
  | .ok a => check a
  | .error _ => false

theorem exists_of_passes {x : Except ε α} (check : α → Bool) (h : passes check x = true) :
    ∃ a, x = .ok a ∧ check a = true := by
  cases x with
  | error e => cases h
  | ok a => exact ⟨a, rfl, h⟩

/-- Whether there is a given fault in place of an answer. -/
def failsWith [DecidableEq ε] (e : ε) : Except ε α → Bool
  | .ok _ => false
  | .error e' => decide (e' = e)

theorem eq_error_of_failsWith [DecidableEq ε] {x : Except ε α} {e : ε}
    (h : failsWith e x = true) : x = .error e := by
  cases x with
  | ok a => cases h
  | error e' => rw [of_decide_eq_true h]

/-- All computations of a list answer exactly if each of them does. -/
theorem mapM_eq_ok_iff {f : α → Except ε β} {xs : List α} {ys : List β} :
    xs.mapM f = .ok ys ↔ List.Forall₂ (fun x y => f x = .ok y) xs ys := by
  induction xs generalizing ys with
  | nil => simp [pure, Except.pure, eq_comm]
  | cons x xs ih =>
    rw [List.mapM_cons, bind_eq_ok_iff, List.forall₂_cons_left_iff]
    constructor
    · rintro ⟨y, hy, h⟩
      obtain ⟨zs, hzs, h⟩ := bind_eq_ok_iff.1 h
      cases h
      exact ⟨y, zs, hy, ih.1 hzs, rfl⟩
    · rintro ⟨y, zs, hy, hzs, rfl⟩
      exact ⟨y, hy, bind_eq_ok_iff.2 ⟨zs, ih.2 hzs, rfl⟩⟩

theorem mapM_eq_ok {f : α → Except ε β} {g : α → β} {xs : List α} (h : ∀ x ∈ xs, f x = .ok (g x)) :
    xs.mapM f = .ok (xs.map g) :=
  mapM_eq_ok_iff.2 (List.forall₂_map_right_iff.2 (List.forall₂_same.2 h))

theorem mapM_congr_left {f g : α → Except ε β} {xs : List α} (h : ∀ x ∈ xs, f x = g x) :
    xs.mapM f = xs.mapM g := by
  induction xs with
  | nil => rfl
  | cons x xs ih =>
    rw [List.mapM_cons, List.mapM_cons, h x List.mem_cons_self,
      ih fun x' hx' => h x' (List.mem_cons_of_mem x hx')]

/-- Going on with what a list gave, element by element. -/
theorem mapM_of_mapM {γ : Type} {f : α → Except ε β} {g : β → Except ε γ} {h : α → Except ε γ}
    {xs : List α} {ys : List β} (hys : xs.mapM f = .ok ys)
    (hh : ∀ x ∈ xs, (f x >>= g) = h x) : ys.mapM g = xs.mapM h := by
  have hall := mapM_eq_ok_iff.1 hys
  induction hall with
  | nil => rfl
  | @cons x y xs ys hx hxs ih =>
    have hhead : g y = h x := by
      rw [← hh x List.mem_cons_self, hx]
      rfl
    rw [List.mapM_cons, List.mapM_cons, hhead,
      ih (mapM_eq_ok_iff.2 hxs) fun x' hx' => hh x' (List.mem_cons_of_mem x hx')]

/-- If some computation of a list fails, the first one that does gives the fault. -/
theorem mapM_eq_error {f : α → Except ε β} {xs : List α} (h : ∃ x ∈ xs, ∃ e, f x = .error e) :
    ∃ x ∈ xs, ∃ e, f x = .error e ∧ xs.mapM f = .error e := by
  induction xs with
  | nil =>
    obtain ⟨x, hx, -⟩ := h
    simp at hx
  | cons x xs ih =>
    cases hx : f x with
    | error e =>
      refine ⟨x, List.mem_cons_self, e, hx, ?_⟩
      rw [List.mapM_cons, hx]
      rfl
    | ok y =>
      obtain ⟨z, hz, e, he⟩ := h
      have htail : ∃ z ∈ xs, ∃ e, f z = .error e := by
        rcases List.mem_cons.1 hz with rfl | hz
        · rw [hx] at he
          cases he
        · exact ⟨z, hz, e, he⟩
      obtain ⟨z, hz, e, he, hrun⟩ := ih htail
      refine ⟨z, List.mem_cons_of_mem x hz, e, he, ?_⟩
      rw [List.mapM_cons, hx]
      change (xs.mapM f >>= _) = _
      rw [hrun]
      rfl

/-- Every answer of a list comes from one of the computations. -/
theorem exists_of_mem_mapM {f : α → Except ε β} {xs : List α} {ys : List β} (h : xs.mapM f = .ok ys)
    {y : β} (hy : y ∈ ys) : ∃ x ∈ xs, f x = .ok y :=
  exists_of_forall₂_right (mapM_eq_ok_iff.1 h) hy

/-- A list of checks passes exactly if each of them does. -/
theorem forM_eq_ok_iff {f : α → Except ε Unit} {xs : List α} :
    xs.forM f = .ok () ↔ ∀ x ∈ xs, f x = .ok () := by
  induction xs with
  | nil => simp [pure, Except.pure]
  | cons x xs ih =>
    change f x >>= (fun _ => xs.forM f) = .ok () ↔ _
    rw [bind_eq_ok_iff, List.forall_mem_cons, ← ih]
    exact ⟨fun ⟨_, hx, h⟩ => ⟨hx, h⟩, fun ⟨hx, h⟩ => ⟨(), hx, h⟩⟩

/-- What holds at the start and is kept by every answering step holds at the end. -/
theorem foldlM_invariant {f : σ → α → Except ε σ} {P : σ → Prop} {xs : List α} {s t : σ}
    (h : xs.foldlM f s = .ok t) (base : P s)
    (step : ∀ s x t, x ∈ xs → P s → f s x = .ok t → P t) : P t := by
  induction xs generalizing s with
  | nil =>
    cases h
    exact base
  | cons x xs ih =>
    rw [List.foldlM_cons, bind_eq_ok_iff] at h
    obtain ⟨u, hu, h⟩ := h
    exact ih h (step s x u List.mem_cons_self base hu)
      fun s y t hy => step s y t (List.mem_cons_of_mem x hy)

/-- A computation ends in an answer of one kind, or in a fault of another kind. -/
def Yields (fault : ε → Prop) (answer : α → Prop) : Except ε α → Prop
  | .ok a => answer a
  | .error e => fault e

section Yields

variable {fault : ε → Prop} {answer mid : α → Prop} {x : Except ε α}

theorem Yields.of_eq_ok {a : α} (h : x = .ok a) (ha : answer a) : Yields fault answer x := by
  rw [h]
  exact ha

theorem Yields.of_eq_error {e : ε} (h : x = .error e) (he : fault e) : Yields fault answer x := by
  rw [h]
  exact he

theorem Yields.fault_of_eq_error {e : ε} (h : Yields fault answer x) (he : x = .error e) :
    fault e := by
  rw [he] at h
  exact h

theorem Yields.answer_of_eq_ok {a : α} (h : Yields fault answer x) (ha : x = .ok a) :
    answer a := by
  rw [ha] at h
  exact h

theorem Yields.imp {fault' : ε → Prop} {answer' : α → Prop} (h : Yields fault answer x)
    (hfault : ∀ e, fault e → fault' e) (hanswer : ∀ a, answer a → answer' a) :
    Yields fault' answer' x := by
  cases x with
  | ok a => exact hanswer a h
  | error e => exact hfault e h

theorem Yields.bind {answer : β → Prop} {f : α → Except ε β} (h : Yields fault mid x)
    (hf : ∀ a, mid a → Yields fault answer (f a)) : Yields fault answer (x >>= f) := by
  cases x with
  | ok a => exact hf a h
  | error e => exact h

/-- A refusal ends in its fault. -/
theorem Yields.refuse {c : Prop} [Decidable c] {e : ε} {f : PUnit → Except ε α} (he : fault e)
    (h : Yields fault answer (f ⟨⟩)) : Yields fault answer (if c then throw e >>= f else f ⟨⟩) := by
  by_cases hc : c
  · rw [if_pos hc]
    exact he
  · rw [if_neg hc]
    exact h

/-- What holds of the part of a list that is done, and is kept by every further step, holds at the
end of the list. -/
theorem Yields.foldlM_done {step : σ → α → Except ε σ} {P : List α → σ → Prop} {xs : List α}
    (hstep : ∀ done x rest, xs = done ++ x :: rest → ∀ s, P done s →
      Yields fault (P (done ++ [x])) (step s x)) {s : σ} (h : P [] s) :
    Yields fault (P xs) (xs.foldlM step s) := by
  have hrest : ∀ rest done s, xs = done ++ rest → P done s →
      Yields fault (P xs) (rest.foldlM step s) := by
    intro rest
    induction rest with
    | nil =>
      intro done s hxs hs
      rw [hxs, List.append_nil]
      exact hs
    | cons x rest ih =>
      intro done s hxs hs
      rw [List.foldlM_cons]
      refine (hstep done x rest hxs s hs).bind fun t ht => ih (done ++ [x]) t ?_ ht
      rw [hxs, List.append_assoc, List.singleton_append]
  exact hrest xs [] s rfl h

/-- What every step of a list keeps holds at its end. -/
theorem Yields.foldlM {step : σ → α → Except ε σ} {holds : σ → Prop} {xs : List α}
    (hstep : ∀ s, ∀ x ∈ xs, holds s → Yields fault holds (step s x)) {s : σ} (h : holds s) :
    Yields fault holds (xs.foldlM step s) := by
  refine Yields.foldlM_done (P := fun _ => holds) (fun done x rest hxs s hs => ?_) h
  exact hstep s x (hxs ▸ List.mem_append_right done List.mem_cons_self) hs

end Yields

end Except

namespace PassingStep

variable {W L α β : Type} {x : PassingStep W L α} {f : α → PassingStep W L β} {p q : Passing W L}

theorem bind_of_ok {a : α} (h : x p = .ok a q) : (x >>= f) p = f a q := by
  change EStateM.bind x f p = _
  rw [EStateM.bind, h]

theorem bind_of_error {e : Fault} (h : x p = .error e q) : (x >>= f) p = .error e q := by
  change EStateM.bind x f p = _
  rw [EStateM.bind, h]

theorem inspect_of_ok {f : CliqueTree W L → Except Fault α} {a : α} (h : f p.tree = .ok a) :
    inspect f p = .ok a p := by
  refine (bind_of_ok (x := get) (a := p) rfl).trans ?_
  rw [h]
  rfl

theorem inspect_of_error {f : CliqueTree W L → Except Fault α} {e : Fault}
    (h : f p.tree = .error e) : inspect f p = .error e p := by
  refine (bind_of_ok (x := get) (a := p) rfl).trans ?_
  rw [h]
  rfl

theorem change_of_ok {f : CliqueTree W L → Except Fault (CliqueTree W L)} {t : CliqueTree W L}
    (h : f p.tree = .ok t) : change f p = .ok () { p with tree := t } :=
  bind_of_ok (inspect_of_ok h)

theorem change_of_error {f : CliqueTree W L → Except Fault (CliqueTree W L)} {e : Fault}
    (h : f p.tree = .error e) : change f p = .error e p :=
  bind_of_error (inspect_of_error h)

theorem changing_of_ok {f : CliqueTree W L → Except Fault (CliqueTree W L × α)}
    {t : CliqueTree W L} {a : α} (h : f p.tree = .ok (t, a)) :
    changing f p = .ok a { p with tree := t } :=
  bind_of_ok (inspect_of_ok h)

theorem changing_of_error {f : CliqueTree W L → Except Fault (CliqueTree W L × α)} {e : Fault}
    (h : f p.tree = .error e) : changing f p = .error e p :=
  bind_of_error (inspect_of_error h)

/-- A step ends in an answer and a state of one kind, or in a fault of another kind. -/
def Ends (fault : Fault → Prop) (answer : α → Passing W L → Prop) :
    EStateM.Result Fault (Passing W L) α → Prop
  | .ok a p => answer a p
  | .error e _ => fault e

section Ends

variable {fault : Fault → Prop} {answer mid : α → Passing W L → Prop}
  {result : EStateM.Result Fault (Passing W L) α}

theorem Ends.imp (h : Ends fault mid result) (himp : ∀ a q, mid a q → answer a q) :
    Ends fault answer result := by
  cases result with
  | ok a q => exact himp a q h
  | error e q => exact h

theorem Ends.imp_fault {fault' : Fault → Prop} (h : Ends fault answer result)
    (himp : ∀ e, fault e → fault' e) : Ends fault' answer result := by
  cases result with
  | ok a q => exact h
  | error e q => exact himp e h

/-- A step without expected faults ends in an answer. -/
theorem Ends.exists_ok (h : Ends (fun _ => False) answer result) :
    ∃ a q, result = .ok a q ∧ answer a q := by
  cases result with
  | ok a q => exact ⟨a, q, rfl, h⟩
  | error e q => exact h.elim

theorem Ends.bind {answer : β → Passing W L → Prop} (h : Ends fault mid (x p))
    (hf : ∀ a q, mid a q → Ends fault answer (f a q)) : Ends fault answer ((x >>= f) p) := by
  cases hx : x p with
  | ok a q =>
    rw [hx] at h
    rw [bind_of_ok hx]
    exact hf a q h
  | error e q =>
    rw [hx] at h
    rw [bind_of_error hx]
    exact h

/-- What holds of the part of a list that is done, and is kept by every further step, holds at the
end of the list. -/
theorem Ends.foldlM {step : α → β → PassingStep W L α} {holds : List β → α → Passing W L → Prop}
    {xs : List β} (hstep : ∀ done b a q, b ∈ xs → holds done a q →
      Ends fault (holds (done ++ [b])) (step a b q)) {done : List β} {a : α} (h : holds done a p) :
    Ends fault (holds (done ++ xs)) (xs.foldlM step a p) := by
  induction xs generalizing done a p with
  | nil =>
    rw [List.append_nil]
    exact h
  | cons b xs ih =>
    rw [List.foldlM_cons, List.append_cons]
    refine (hstep done b a p List.mem_cons_self h).bind fun a q hq => ?_
    exact ih (fun done c a q hc => hstep done c a q (List.mem_cons_of_mem b hc)) hq

end Ends

end PassingStep

end ExactInference
