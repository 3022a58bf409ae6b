import ExactInference.Proofs.Completeness
import ExactInference.Proofs.Interleavings

/-!
# The rounds of an elimination

The books of an elimination say twice who holds a variable: by name, and by the number of holders.
Both are kept in place, variable by variable, while rounds are executed: looking up a key that has
not arrived enters it, an attempt hands on the books that it leaves also when it fails, and books
that contradict each other break the round off. Before every round both books are right. So no round
is broken off, an attempt that fails leaves no trace, and the rounds end where the elimination ends.
-/

namespace ExactInference

/-- Look up the list under a key. A key that has not arrived is entered with an empty list. -/
def OrderedMap.consult {κ α : Type} [BEq κ] (m : OrderedMap κ (List α)) (k : κ) :
    OrderedMap κ (List α) :=
  if m.contains k then m else m.insert k []

theorem OrderedMap.consult_of_mem {κ α : Type} [BEq κ] [LawfulBEq κ] {m : OrderedMap κ (List α)}
    {k : κ} (h : k ∈ m.keys) : m.consult k = m :=
  if_pos ((contains_iff_mem_keys m k).2 h)

namespace Elimination

variable {scopes : List (List String)} {sizes : List ℕ} {e e' first : Elimination} {i n : ℕ}
  {v : String} {vs : List String} {rank : String → ℕ}

/-- How books can contradict each other. -/
inductive Contradiction
  /-- A variable that is counted once has no holder, or several. -/
  | notSingle (v : String)
  /-- A clique closes its component, and no other one remains. -/
  | noOther (i : ℕ)
deriving DecidableEq, Repr

/-- The books after the holders of a variable are looked up. -/
def lookUp (e : Elimination) (v : String) : Elimination := { e with holders := e.holders.consult v }

/-- The books after the variables that are counted once are looked up. -/
def lookUpSingles (e : Elimination) : Elimination := { e with byCount := e.byCount.consult 1 }

/-- Strike a clique from those that remain. -/
def leave (e : Elimination) (i : ℕ) : Elimination :=
  { e with remaining := e.remaining.filter (· ≠ i), order := e.order ++ [i] }

/-- Try to merge a clique into another one, or to close its component. The answer says whether that
was possible, and comes with the books as they are then. -/
def attempt (e : Elimination) (i : ℕ) : Except Contradiction (Bool × Elimination) :=
  let read := (e.scopeOf i).foldl lookUp e
  match read.retained i with
  | [] =>
    match (read.remaining.filter (· ≠ i)).min? with
    | none => .error (.noOther i)
    | some next => .ok (true,
        (e.scopeOf i).foldl (release i) { read with closings := read.closings ++ [(i, next)] })
  | shared =>
    match read.best? (read.candidates i shared) with
    | none => .ok (false, read)
    | some target => .ok (true,
        (e.scopeOf i).foldl (release i) { read with edges := read.edges ++ [(i, target)] })

/-- Try the holder of one variable after the other until a clique can be taken out. -/
def tryEach (e : Elimination) : List String → Except Contradiction (Option ℕ × Elimination)
  | [] => .ok (none, e)
  | v :: vs =>
    match e.holdersOf v with
    | [i] =>
      match e.attempt i with
      | .error c => .error c
      | .ok (true, e) => .ok (some i, e)
      | .ok (false, e) => tryEach e vs
    | _ => .error (.notSingle v)

/-- What a step makes of one variable: its only holder is taken out, if that is possible. -/
def outcome? (e : Elimination) (v : String) : Option Elimination :=
  match e.holdersOf v with
  | [i] => e.eliminate? i
  | _ => none

theorem step?_eq_findSome? (rank : String → ℕ) (e : Elimination) :
    e.step? rank = (e.singles rank).findSome? e.outcome? := rfl

/-- One round: the clique that was taken out, if there was one, and the books after it. -/
def round (rank : String → ℕ) (e : Elimination) : Except Contradiction (Option ℕ × Elimination) :=
  match e.lookUpSingles.tryEach (e.lookUpSingles.singles rank) with
  | .ok (some i, e) => .ok (some i, e.leave i)
  | other => other

/-- The books after a number of rounds that each took a clique out. A round only begins if there is
more than one clique left. -/
inductive Rounds (rank : String → ℕ) (first : Elimination) : ℕ → Elimination → Prop
  /-- Nothing is taken out yet. -/
  | start : Rounds rank first 0 first
  /-- One more round takes a clique out. -/
  | round {n i : ℕ} {e e' : Elimination} : Rounds rank first n e → 1 < e.remaining.length →
    e.round rank = .ok (some i, e') → Rounds rank first (n + 1) e'

/-- No variable is listed twice under one number. -/
def Once (e : Elimination) : Prop := ∀ k, (e.withCount k).Nodup

theorem nodup_enter {counts : OrderedMap ℕ (List String)} {m : ℕ}
    (h : ∀ k, ((counts.get? k).getD []).Nodup) (k : ℕ) :
    (((enter counts m v).get? k).getD []).Nodup := by
  by_cases hk : k = m
  · subst hk
    simp only [enter, OrderedMap.get?_insert_self, Option.getD_some]
    split
    · exact h k
    · next hv =>
      rw [List.contains_eq_mem, decide_eq_true_eq] at hv
      rw [← List.concat_eq_append]
      exact (h k).concat hv
  · rw [enter, OrderedMap.get?_insert_of_ne counts hk]
    exact h k

theorem once_start (scopes : List (List String)) (sizes : List ℕ) : Once (start scopes sizes) := by
  have hall : ∀ (es : List (String × List ℕ)) (counts : OrderedMap ℕ (List String)),
      (∀ k, ((counts.get? k).getD []).Nodup) → ∀ k,
      (((es.foldl (fun m e => enter m e.2.length e.1) counts).get? k).getD []).Nodup := by
    intro es
    induction es with
    | nil => exact fun counts h => h
    | cons e es ih => exact fun counts h => ih _ (nodup_enter h)
  exact hall _ OrderedMap.empty fun k => by simp

/-- Moving a variable to another number lists it there once. -/
theorem Once.release (h : Once e) (i : ℕ) (v : String) : Once (release i e v) := by
  have hstruck : ∀ k, (((e.byCount.insert (e.holdersOf v).length
      ((e.withCount (e.holdersOf v).length).filter (· ≠ v))).get? k).getD []).Nodup := by
    intro k
    rw [getD_struck]
    split
    · exact (h k).filter _
    · exact h k
  intro k
  rw [withCount, Elimination.release]
  by_cases hmany : 1 < (e.holdersOf v).length
  · simp only [gt_iff_lt, hmany, if_true]
    exact nodup_enter hstruck k
  · simp only [gt_iff_lt, hmany, if_false]
    exact hstruck k

theorem Once.foldl_release (h : Once e) (i : ℕ) (vs : List String) :
    Once (vs.foldl (Elimination.release i) e) := by
  induction vs generalizing e with
  | nil => exact h
  | cons v vs ih => exact ih (h.release i v)

/-- Every variable of a clique has an entry for its holders. -/
def Entered (e : Elimination) : Prop := ∀ i, ∀ v ∈ e.scopeOf i, v ∈ e.holders.keys

theorem mem_keys_of_mem_holdersOf (h : i ∈ e.holdersOf v) : v ∈ e.holders.keys := by
  cases hget : e.holders.get? v with
  | none => simp [holdersOf, hget] at h
  | some js => exact OrderedMap.mem_keys_of_get? hget

theorem entered_start (hscopes : ∀ s ∈ scopes, s.Nodup) (sizes : List ℕ) :
    Entered (start scopes sizes) := by
  intro i v hv
  have hb := Books.start hscopes sizes
  rw [hb.scopeOf_eq] at hv
  have hi : i < scopes.length := by
    by_contra hi
    rw [List.getD_eq_getElem?_getD, List.getElem?_eq_none (not_lt.1 hi)] at hv
    exact absurd hv List.not_mem_nil
  exact mem_keys_of_mem_holdersOf (hb.mem_holdersOf.2 ⟨List.mem_range.2 hi, mem_scopeSets.2 hv⟩)

/-- Striking a clique from the holders of some variables removes no entry. -/
theorem mem_keys_foldl_release (h : v ∈ e.holders.keys) (i : ℕ) (vs : List String) :
    v ∈ (vs.foldl (release i) e).holders.keys := by
  induction vs generalizing e with
  | nil => exact h
  | cons w vs ih => exact ih (OrderedMap.mem_keys_insert.2 (Or.inl h))

/-- Books on which rounds can rely. -/
structure Reliable (scopes : List (List String)) (e : Elimination) : Prop where
  /-- The holders of a variable are right. -/
  books : Books scopes e
  /-- So is the number of holders under which it is listed. -/
  counted : Counted e
  /-- It is listed there once. -/
  once : Once e
  /-- Every variable of a clique has an entry for its holders. -/
  entered : Entered e

namespace Reliable

theorem start (hscopes : ∀ s ∈ scopes, s.Nodup) (sizes : List ℕ) :
    Reliable scopes (start scopes sizes) where
  books := .start hscopes sizes
  counted := counted_start scopes sizes
  once := once_start scopes sizes
  entered := entered_start hscopes sizes

/-- Taking a remaining clique out leaves the books reliable. -/
theorem eliminate? (h : Reliable scopes e) (hscopes : ∀ s ∈ scopes, s.Nodup)
    (hi : i ∈ e.remaining) (he : e.eliminate? i = some e') : Reliable scopes e' := by
  have hb := h.books.eliminate? hi he
  have hout : Once e' ∧ ∀ v ∈ e.holders.keys, v ∈ e'.holders.keys := by
    obtain ⟨edges, closings, rfl⟩ := exists_takeOut he
    exact ⟨Once.foldl_release (e := { e with edges, closings }) h.once i _,
      fun v hv => mem_keys_foldl_release (e := { e with edges, closings }) hv i _⟩
  refine ⟨hb, h.counted.eliminate? h.books hscopes hi he, hout.1, fun k v hv => ?_⟩
  rw [hb.scopeOf_eq, ← h.books.scopeOf_eq] at hv
  exact hout.2 v (h.entered k v hv)

/-- A variable that is counted once has one holder, and that clique remains. -/
theorem exists_holder (h : Reliable scopes e) (hv : v ∈ e.withCount 1) :
    ∃ i ∈ e.remaining, e.holdersOf v = [i] := by
  obtain ⟨i, hi⟩ := List.length_eq_one_iff.1 ((h.counted v 1 one_pos).1 hv)
  exact ⟨i, (h.books.mem_holdersOf (v := v).1 (by simp [hi])).1, hi⟩

/-- If there is more than one clique left, then one is left beside any clique. -/
theorem exists_other (h : Reliable scopes e) (hmore : 1 < e.remaining.length) (i : ℕ) :
    ∃ next, (e.remaining.filter (· ≠ i)).min? = some next := by
  rw [← List.toFinset_card_of_nodup h.books.remaining_nodup] at hmore
  obtain ⟨j, hj, hji⟩ := Finset.exists_mem_ne hmore i
  have hother : j ∈ e.remaining.filter (· ≠ i) := by simpa [hji] using hj
  exact Option.isSome_iff_exists.1 (List.isSome_min?_of_mem hother)

/-- Looking up the variables of a clique enters nothing. -/
theorem foldl_lookUp (h : Reliable scopes e) (i : ℕ) : (e.scopeOf i).foldl lookUp e = e := by
  have hall : ∀ vs : List String, (∀ v ∈ vs, v ∈ e.holders.keys) → vs.foldl lookUp e = e := by
    intro vs
    induction vs with
    | nil => exact fun _ => rfl
    | cons v vs ih =>
      intro hvs
      have hread : e.lookUp v = e := by
        rw [lookUp, OrderedMap.consult_of_mem (hvs v List.mem_cons_self)]
      rw [List.foldl_cons, hread]
      exact ih fun w hw => hvs w (List.mem_cons_of_mem v hw)
  exact hall _ (h.entered i)

/-- An attempt that fails leaves the books as they are. -/
theorem eq_of_attempt (h : Reliable scopes e) (he : e.attempt i = .ok (false, e')) : e' = e := by
  simp only [attempt, h.foldl_lookUp i] at he
  split at he
  · split at he <;> cases he
  · split at he <;> cases he
    rfl

/-- An attempt is never broken off, and it comes to what taking the clique out comes to. -/
theorem attempt_cases (h : Reliable scopes e) (hmore : 1 < e.remaining.length) (i : ℕ) :
    (∃ e', e.attempt i = .ok (true, e') ∧ e.eliminate? i = some (e'.leave i)) ∨
      (e.attempt i = .ok (false, e) ∧ e.eliminate? i = none) := by
  unfold attempt Elimination.eliminate?
  simp only [h.foldl_lookUp i]
  cases hr : e.retained i with
  | nil =>
    obtain ⟨next, hnext⟩ := h.exists_other hmore i
    simp only [hnext]
    exact Or.inl ⟨_, rfl, rfl⟩
  | cons w ws =>
    cases hbest : e.best? (e.candidates i (w :: ws)) with
    | none => exact Or.inr ⟨by simp only [hbest], by simp only [hbest]; rfl⟩
    | some target =>
      simp only [hbest]
      exact Or.inl ⟨_, rfl, rfl⟩

/-- Trying the holders of variables that are counted once takes out the clique that a step takes
out, and is never broken off. -/
theorem tryEach_cases (h : Reliable scopes e) (hmore : 1 < e.remaining.length)
    (hvs : ∀ v ∈ vs, v ∈ e.withCount 1) :
    (∃ i ∈ e.remaining, ∃ e', e.tryEach vs = .ok (some i, e') ∧
      e.eliminate? i = some (e'.leave i) ∧ vs.findSome? e.outcome? = some (e'.leave i)) ∨
    (e.tryEach vs = .ok (none, e) ∧ vs.findSome? e.outcome? = none) := by
  induction vs with
  | nil => exact Or.inr ⟨rfl, rfl⟩
  | cons v vs ih =>
    obtain ⟨i, hi, hone⟩ := h.exists_holder (hvs v List.mem_cons_self)
    simp only [tryEach, List.findSome?_cons, outcome?, hone]
    rcases h.attempt_cases hmore i with ⟨e', hattempt, hout⟩ | ⟨hattempt, hstay⟩
    · simp only [hattempt, hout]
      exact Or.inl ⟨i, hi, e', rfl, hout, rfl⟩
    · -- The next variable is tried on the same books.
      simp only [hattempt, hstay]
      exact ih fun w hw => hvs w (List.mem_cons_of_mem v hw)

/-- A round is never broken off, and it comes to what a step comes to. -/
theorem round_cases (h : Reliable scopes e) (hmore : 1 < e.remaining.length) (rank : String → ℕ) :
    (∃ i ∈ e.remaining, ∃ e', e.round rank = .ok (some i, e') ∧ e.eliminate? i = some e' ∧
      e.step? rank = some e') ∨
    (e.round rank = .ok (none, e.lookUpSingles) ∧ e.step? rank = none) := by
  rw [Elimination.round, step?_eq_findSome?]
  by_cases hkey : 1 ∈ e.byCount.keys
  · have hread : e.lookUpSingles = e := by
      rw [lookUpSingles, OrderedMap.consult_of_mem hkey]
    have hsingles : ∀ v ∈ e.singles rank, v ∈ e.withCount 1 := fun v hv =>
      (mem_arrange _ _ v).1 hv
    rw [hread]
    rcases h.tryEach_cases hmore hsingles with
      ⟨i, hi, e', htry, hout, hfound⟩ | ⟨htry, hnone⟩
    · rw [htry]
      exact Or.inl ⟨i, hi, _, rfl, hout, hfound⟩
    · rw [htry]
      exact Or.inr ⟨rfl, hnone⟩
  · -- No variable is counted once, before the look-up and after it.
    have hget : e.byCount.get? 1 = none := by
      rw [← OrderedMap.contains_iff_mem_keys, OrderedMap.contains] at hkey
      simpa using hkey
    have hempty : e.singles rank = [] := by simp [singles, withCount, hget, arrange]
    have hread : e.lookUpSingles.singles rank = [] := by
      simp [singles, withCount, lookUpSingles, OrderedMap.consult, OrderedMap.contains, hget,
        arrange]
    rw [hempty, hread]
    exact Or.inr ⟨rfl, rfl⟩

end Reliable

/-- What holds before a round when some rounds have taken cliques out. -/
structure BeforeRound (scopes : List (List String)) (rank : String → ℕ) (n : ℕ)
    (e : Elimination) : Prop where
  /-- The holders of a variable are the remaining cliques with it, -/
  mem_holdersOf_iff : ∀ {v i}, i ∈ e.holdersOf v ↔ i ∈ e.remaining ∧ v ∈ scopes.getD i []
  /-- each listed once. -/
  holders_nodup : ∀ v, (e.holdersOf v).Nodup
  /-- A variable is listed under the number of its holders and under no other number, -/
  mem_withCount_iff : ∀ {v k}, 0 < k → (v ∈ e.withCount k ↔ (e.holdersOf v).length = k)
  /-- and listed there once. -/
  withCount_nodup : ∀ k, (e.withCount k).Nodup
  /-- A variable that is counted once has exactly one holder, which remains. -/
  holder : ∀ {v}, v ∈ e.withCount 1 → ∃ i ∈ e.remaining, e.holdersOf v = [i]
  /-- Beside any clique there is a first one that remains, -/
  other : 1 < e.remaining.length → ∀ i, ∃ next, (e.remaining.filter (· ≠ i)).min? = some next
  /-- so that no attempt is broken off. -/
  attempt : 1 < e.remaining.length → ∀ i, ∃ out e', e.attempt i = .ok (out, e')
  /-- An attempt that fails leaves the books as they are. -/
  untouched : ∀ {i e'}, e.attempt i = .ok (false, e') → e' = e
  /-- A round takes out one of the remaining cliques, which is the step of the elimination, or there
  is no such step and the round has only looked something up. -/
  round : 1 < e.remaining.length →
    (∃ i ∈ e.remaining, ∃ e', e.round rank = .ok (some i, e') ∧ e.step? rank = some e' ∧
      e'.remaining = e.remaining.filter (· ≠ i) ∧ e'.order = e.order ++ [i]) ∨
    (e.round rank = .ok (none, e.lookUpSingles) ∧ e.step? rank = none)
  /-- Every clique has been taken out or remains, and none is listed twice. -/
  perm : (e.order ++ e.remaining).Perm (List.range scopes.length)
  /-- Every round so far has taken one clique out, -/
  length_order : e.order.length = n
  /-- and one is left at least. -/
  lt_length : n < scopes.length

/-- Rounds that start from some books take out what the elimination takes out. -/
structure RunsInRounds (rank : String → ℕ) (first : Elimination) : Prop where
  /-- What holds before every round. -/
  before : ∀ {n e}, Rounds rank first n e → BeforeRound first.scopes rank n e
  /-- The rounds end before every clique is taken out, with one clique left or with a round that
  takes none out. -/
  ends : ∃ n e, Rounds rank first n e ∧ n < first.scopes.length ∧
    ((∃ i, e.remaining = [i]) ∧ first.run rank = .ok e ∨
      1 < e.remaining.length ∧ e.round rank = .ok (none, e.lookUpSingles) ∧
        first.run rank = .error e)

namespace Reliable

/-- A round that takes a clique out takes the step. -/
theorem of_round (h : Reliable scopes e) (hmore : 1 < e.remaining.length)
    (he : e.round rank = .ok (some i, e')) :
    i ∈ e.remaining ∧ e.eliminate? i = some e' ∧ e.step? rank = some e' := by
  rcases h.round_cases hmore rank with ⟨j, hj, e₁, hround, hout, hstep⟩ | ⟨hround, -⟩
  · cases he.symm.trans hround
    exact ⟨hj, hout, hstep⟩
  · cases he.symm.trans hround

/-- Rounds leave the books reliable, with one clique fewer after each of them. -/
theorem rounds (h : Reliable scopes first) (hscopes : ∀ s ∈ scopes, s.Nodup)
    (hrounds : Rounds rank first n e) :
    Reliable scopes e ∧ n + e.remaining.length = first.remaining.length ∧
      (0 < first.remaining.length → 0 < e.remaining.length) := by
  induction hrounds with
  | start => exact ⟨h, Nat.zero_add _, id⟩
  | round _ hmore hround ih =>
    obtain ⟨he, hcount, -⟩ := ih
    obtain ⟨hi, hout, hstep⟩ := he.of_round hmore hround
    obtain ⟨-, hlength⟩ := he.books.step? hstep
    exact ⟨he.eliminate? hscopes hi hout, by omega, fun _ => by omega⟩

/-- What reliable books say before a round. -/
theorem beforeRound (h : Reliable scopes e) (hcount : n + e.remaining.length = scopes.length)
    (hpos : 0 < e.remaining.length) (rank : String → ℕ) : BeforeRound scopes rank n e where
  mem_holdersOf_iff := h.books.mem_holdersOf.trans (and_congr_right fun _ => mem_scopeSets)
  holders_nodup := h.books.nodup_holdersOf
  mem_withCount_iff := h.counted _ _
  withCount_nodup := h.once
  holder := h.exists_holder
  other := h.exists_other
  attempt hmore i := by
    rcases h.attempt_cases hmore i with ⟨e', hattempt, -⟩ | ⟨hattempt, -⟩
    · exact ⟨true, e', hattempt⟩
    · exact ⟨false, e, hattempt⟩
  untouched := h.eq_of_attempt
  round hmore := by
    refine (h.round_cases hmore rank).imp_left ?_
    rintro ⟨i, hi, e', hround, hout, hstep⟩
    exact ⟨i, hi, e', hround, hstep, remaining_of_eliminate? hout, order_of_eliminate? hout⟩
  perm := h.books.perm
  length_order := by
    have hlength := h.books.perm.length_eq
    rw [List.length_append, List.length_range] at hlength
    omega
  lt_length := by omega

/-- The rounds end where the elimination ends. -/
theorem ends (h : Reliable scopes first) (hscopes : ∀ s ∈ scopes, s.Nodup)
    (hrounds : Rounds rank first n e) {more : ℕ} (hmore : e.remaining.length = more + 1) :
    ∃ m done, Rounds rank first m done ∧
      ((∃ i, done.remaining = [i]) ∧ e.exhaust rank more = .ok done ∨
        1 < done.remaining.length ∧ done.round rank = .ok (none, done.lookUpSingles) ∧
          e.exhaust rank more = .error done) := by
  induction more generalizing n e with
  | zero => exact ⟨n, e, hrounds, Or.inl ⟨List.length_eq_one_iff.1 hmore, rfl⟩⟩
  | succ more ih =>
    obtain ⟨he, -, -⟩ := h.rounds hscopes hrounds
    have hseveral : 1 < e.remaining.length := by omega
    rcases he.round_cases hseveral rank with ⟨i, -, e', hround, -, hstep⟩ | ⟨hround, hstep⟩
    · obtain ⟨-, hlength⟩ := he.books.step? hstep
      rw [exhaust, hstep]
      exact ih (hrounds.round hseveral hround) (by omega)
    · rw [exhaust, hstep]
      exact ⟨n, e, hrounds, Or.inr ⟨hseveral, hround, rfl⟩⟩

end Reliable

/-- An elimination of cliques, of which there is one at least, runs in rounds. -/
theorem runsInRounds (hscopes : ∀ s ∈ scopes, s.Nodup) (hne : scopes ≠ []) (sizes : List ℕ)
    (rank : String → ℕ) : RunsInRounds rank (start scopes sizes) := by
  have hstart := Reliable.start hscopes sizes
  have hlength : (start scopes sizes).remaining.length = scopes.length := List.length_range
  have hpos : 0 < scopes.length := List.length_pos_iff.2 hne
  have hbefore : ∀ {n e}, Rounds rank (Elimination.start scopes sizes) n e →
      BeforeRound scopes rank n e := by
    intro n e hrounds
    obtain ⟨he, hcount, hleft⟩ := hstart.rounds hscopes hrounds
    rw [hlength] at hcount hleft
    exact he.beforeRound hcount (hleft hpos) rank
  have hzero : Rounds rank (start scopes sizes) 0 (start scopes sizes) := .start
  have hsize : (start scopes sizes).remaining.length = scopes.length - 1 + 1 := by omega
  obtain ⟨n, e, hrounds, hends⟩ := hstart.ends hscopes hzero hsize
  exact ⟨hbefore, n, e, hrounds, (hbefore hrounds).lt_length, hends⟩

/-- The books with which the elimination of some factors starts. -/
def ofFactors {W L : Type} [WeightScale W] [WeightScale L] [LogConversion W L]
    (factors : List (Factor W L)) : Elimination :=
  start (factors.map Factor.names) (factors.map Factor.size)

/-- The minimal factors of a reachable graph, if there are any, are eliminated in rounds: both books
are right before each of them, none of them is broken off, and they come to the same end as the
elimination that builds the clique tree. -/
theorem runsInRounds_of_reachable {W L : Type} [WeightScale W] [WeightScale L] [LogConversion W L]
    {g : FactorGraph W L} (hg : FactorGraph.Reachable g) :
    ∃ factors, g.minimalFactors = .ok factors ∧
      (factors ≠ [] → RunsInRounds (rankIn g.freeNames) (ofFactors factors)) := by
  obtain ⟨value, hfactors, -⟩ := hg.sound.exists_minimalFactors
  refine ⟨_, hfactors, fun hne => ?_⟩
  exact runsInRounds (CliqueTree.nodup_names _) (by simpa using hne) _ _

/-- A factor with a variable of its own, of which no single other factor holds the rest. -/
def hubOfFactors : List (Factor ℚ≥0 (FormalLog ℚ≥0)) :=
  [.plain (Table.ofFn ⟨[⟨"X", 2⟩, ⟨"A", 2⟩, ⟨"B", 2⟩], by decide⟩ fun _ => 1),
    CliqueTree.pairFactor "A" "Y" 1 2 3 4, CliqueTree.pairFactor "B" "Z" 2 1 1 3]

/-- In the first round the first attempt fails without a trace, and the second one succeeds. -/
theorem runsInRounds_hub :
    ∃ g factors e, FactorGraph.ofFactors hubOfFactors = .ok g ∧
      g.minimalFactors = .ok factors ∧
      RunsInRounds (rankIn g.freeNames) (ofFactors factors) ∧
      (ofFactors factors).singles (rankIn g.freeNames) = ["X", "Y", "Z"] ∧
      (ofFactors factors).attempt 0 = .ok (false, ofFactors factors) ∧
      (ofFactors factors).round (rankIn g.freeNames) = .ok (some 1, e) := by
  have hok : passes (fun r : FactorGraph ℚ≥0 (FormalLog ℚ≥0) × List (Factor ℚ≥0 _) =>
      !r.2.isEmpty && (ofFactors r.2).singles (rankIn r.1.freeNames) == ["X", "Y", "Z"]
        && passes (fun out => !out.1) ((ofFactors r.2).attempt 0)
        && passes (fun out => out.1 == some 1) ((ofFactors r.2).round (rankIn r.1.freeNames)))
      (FactorGraph.ofFactors hubOfFactors >>= fun g =>
        g.minimalFactors >>= fun factors => pure (g, factors)) = true := by decide +kernel
  obtain ⟨⟨g, factors⟩, hrun, hcheck⟩ := exists_of_passes _ hok
  obtain ⟨g', hg, hrun⟩ := bind_eq_ok_iff.1 hrun
  obtain ⟨factors', hfactors, hrun⟩ := bind_eq_ok_iff.1 hrun
  cases hrun
  simp only [Bool.and_eq_true, Bool.not_eq_true', beq_iff_eq] at hcheck
  obtain ⟨⟨⟨hne, hsingles⟩, hfails⟩, htakes⟩ := hcheck
  obtain ⟨factors', hfactors', hruns⟩ := runsInRounds_of_reachable (.ofFactors hg)
  cases hfactors.symm.trans hfactors'
  have hrounds := hruns fun he => by simp [he] at hne
  obtain ⟨⟨out, e₁⟩, hattempt, hout⟩ := exists_of_passes _ hfails
  obtain ⟨⟨out', e₂⟩, hround, hout'⟩ := exists_of_passes _ htakes
  simp only [Bool.not_eq_true', beq_iff_eq] at hout hout'
  subst hout hout'
  rw [(hrounds.before .start).untouched hattempt] at hattempt
  exact ⟨g, factors, e₂, hg, hfactors, hrounds, hsingles, hattempt, hround⟩

end Elimination

end ExactInference
