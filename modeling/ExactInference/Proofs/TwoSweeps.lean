import ExactInference.Proofs.JoinForest

/-!
# Two sweeps over a forest

A visited clique sends to a neighbor what it has not sent yet, as soon as all its other neighbors
have sent to it. Cliques are visited along a schedule and back. All messages are sent exactly if no
clique that stands between two others on a path is visited before both of them while the path goes
on: on a path `a`, `b`, `c`, `d` the message from `c` to `d` needs visits to `a`, `b` and `c` in
this order, and a clique that comes before its two neighbors is in the way on both sweeps.
-/

namespace ExactInference

/-- The messages sent after a visit to a clique. -/
def spread (G : SimpleGraph ℕ) (S : ℕ → ℕ → Prop) (i : ℕ) : ℕ → ℕ → Prop :=
  fun a b => S a b ∨ a = i ∧ G.Adj i b ∧ ∀ k, G.Adj i k → k ≠ b → S k i

/-- The messages sent after some visits. -/
def spreadAll (G : SimpleGraph ℕ) (S : ℕ → ℕ → Prop) (visits : List ℕ) : ℕ → ℕ → Prop :=
  visits.foldl (spread G) S

section Spread

variable {G : SimpleGraph ℕ} {S : ℕ → ℕ → Prop} {a b i : ℕ}

theorem sent_of_spread {S' : ℕ → ℕ → Prop} (h : S' = spread G S i) (hab : S a b) : S' a b := by
  rw [h]
  exact Or.inl hab

/-- Only the visited node sends. -/
theorem sent_of_ne {S' : ℕ → ℕ → Prop} (h : S' = spread G S i) (hai : a ≠ i) (hab : S' a b) :
    S a b := by
  rw [h] at hab
  exact hab.resolve_right fun hi => hai hi.1

theorem spreadAll_append (first second : List ℕ) :
    spreadAll G S (first ++ second) = spreadAll G (spreadAll G S first) second :=
  List.foldl_append ..

/-- What was sent stays sent. -/
theorem spreadAll_of_sent (h : S a b) (visits : List ℕ) : spreadAll G S visits a b := by
  induction visits generalizing S with
  | nil => exact h
  | cons i visits ih => exact ih (Or.inl h)

theorem spreadAll_of_append {first : List ℕ} (h : spreadAll G S first a b) (second : List ℕ) :
    spreadAll G S (first ++ second) a b := by
  rw [spreadAll_append]
  exact spreadAll_of_sent h second

/-- A visited clique has sent what it could. -/
theorem spreadAll_concat {visits : List ℕ} (hadj : G.Adj a b)
    (hall : ∀ k, G.Adj a k → k ≠ b → spreadAll G S visits k a) :
    spreadAll G S (visits ++ [a]) a b := by
  rw [spreadAll_append]
  exact Or.inr ⟨rfl, hadj, hall⟩

/-- Only visited cliques send. -/
theorem mem_of_spreadAll {visits : List ℕ} (h : spreadAll G S visits a b) : S a b ∨ a ∈ visits := by
  induction visits generalizing S with
  | nil => exact Or.inl h
  | cons i visits ih =>
    rcases ih h with (hs | ⟨rfl, -⟩) | hv
    · exact Or.inl hs
    · exact Or.inr List.mem_cons_self
    · exact Or.inr (List.mem_cons_of_mem i hv)

/-- If senders have always received from their other neighbors, then they always will have. -/
theorem received_of_spreadAll (hS : ∀ a b k, S a b → G.Adj a k → k ≠ b → S k a) (visits : List ℕ) :
    ∀ a b k, spreadAll G S visits a b → G.Adj a k → k ≠ b → spreadAll G S visits k a := by
  induction visits generalizing S with
  | nil => exact hS
  | cons i visits ih =>
    refine ih fun a b k hab hak hkb => ?_
    rcases hab with hab | ⟨rfl, -, hall⟩
    · exact Or.inl (hS a b k hab hak hkb)
    · exact Or.inl (hall k hak hkb)

/-- A node that has received everything before it sends anything. -/
def Gathers (G : SimpleGraph ℕ) (S : ℕ → ℕ → Prop) (i : ℕ) : Prop :=
  (∀ b, ¬ S i b) ∧ ∀ k, G.Adj i k → S k i

/-- Some visit to a node finds that it gathers. -/
def GathersOnVisit (G : SimpleGraph ℕ) (S : ℕ → ℕ → Prop) (visits : List ℕ) (i : ℕ) : Prop :=
  ∃ before after, visits = before ++ i :: after ∧ Gathers G (spreadAll G S before) i

theorem gathersOnVisit_nil : ¬ GathersOnVisit G S [] i := by
  rintro ⟨before, after, he, -⟩
  simp at he

/-- It is found on the first visit or on a later one. -/
theorem gathersOnVisit_cons {j : ℕ} {visits : List ℕ} : GathersOnVisit G S (j :: visits) i ↔
    (i = j ∧ Gathers G S i) ∨ GathersOnVisit G (spread G S j) visits i := by
  constructor
  · rintro ⟨before, after, he, hgathers⟩
    cases before with
    | nil =>
      rw [List.nil_append, List.cons.injEq] at he
      exact Or.inl ⟨he.1.symm, hgathers⟩
    | cons k before =>
      rw [List.cons_append, List.cons.injEq] at he
      obtain ⟨rfl, rfl⟩ := he
      exact Or.inr ⟨before, after, rfl, hgathers⟩
  · rintro (⟨rfl, hgathers⟩ | ⟨before, after, rfl, hgathers⟩)
    · exact ⟨[], visits, rfl, hgathers⟩
    · exact ⟨j :: before, after, rfl, hgathers⟩

end Spread

/-- A path of four vertices whose second one stands before the first and the third. -/
def Blocked (G : SimpleGraph ℕ) (pos : ℕ → Int) : Prop :=
  ∃ a b c d, G.Adj a b ∧ G.Adj b c ∧ G.Adj c d ∧ a ≠ c ∧ b ≠ d ∧ pos b < pos a ∧ pos b < pos c

section Sweeps

variable {G : SimpleGraph ℕ} {S : ℕ → ℕ → Prop} {pos : ℕ → Int} {order before after : List ℕ}
  {a b c d k : ℕ}

/-- In an ordered list an element stands before or after another one as the positions say. -/
theorem mem_before_or_after (horder : order.Pairwise (pos · < pos ·))
    (hsplit : order = before ++ a :: after) (hk : k ∈ order) (hne : k ≠ a) :
    (k ∈ before ∧ pos k < pos a) ∨ (k ∈ after ∧ pos a < pos k) := by
  subst hsplit
  obtain ⟨-, hafter, hbefore⟩ := List.pairwise_append.1 horder
  rcases List.mem_append.1 hk with hk | hk
  · exact Or.inl ⟨hk, hbefore k hk a List.mem_cons_self⟩
  · rcases List.mem_cons.1 hk with rfl | hk
    · exact absurd rfl hne
    · exact Or.inr ⟨hk, (List.pairwise_cons.1 hafter).1 k hk⟩

/-- On the way there a message is sent if whatever it has to take in comes from earlier cliques and
is sent on the way there as well. -/
theorem sent_on_the_way (horder : order.Pairwise (pos · < pos ·))
    (hmem : ∀ {u w}, G.Adj u w → u ∈ order) {P : ℕ → ℕ → Prop}
    (hP : ∀ {a b k}, P a b → G.Adj a k → k ≠ b → pos k < pos a ∧ P k a)
    (hsplit : order = before ++ a :: after) (hab : G.Adj a b) (hPab : P a b) :
    spreadAll G S (before ++ [a]) a b := by
  induction hn : before.length using Nat.strong_induction_on generalizing before after a b with
  | _ n ih =>
    refine spreadAll_concat hab fun k hak hkb => ?_
    obtain ⟨hpos, hPka⟩ := hP hPab hak hkb
    rcases mem_before_or_after horder hsplit (hmem hak.symm) hak.ne' with ⟨hk, -⟩ | ⟨-, hlt⟩
    · obtain ⟨front, back, rfl⟩ := List.append_of_mem hk
      have hsent := ih front.length (by rw [← hn]; simp)
        (hsplit.trans (by rw [List.append_assoc, List.cons_append])) hak.symm hPka rfl
      rw [List.append_cons]
      exact spreadAll_of_append hsent back
    · exact absurd hlt hpos.asymm

/-- On the way there a clique sends toward later cliques with further neighbors. -/
theorem sent_on_first_sweep (horder : order.Pairwise (pos · < pos ·))
    (hmem : ∀ {u w}, G.Adj u w → u ∈ order) (hfree : ¬ Blocked G pos)
    (hsplit : order = before ++ a :: after) (hab : G.Adj a b) (hbd : G.Adj b d) (hda : d ≠ a)
    (hlt : pos a < pos b) : spreadAll G S (before ++ [a]) a b := by
  refine sent_on_the_way horder hmem (P := fun a b => G.Adj a b ∧ pos a < pos b ∧
    ∃ d, G.Adj b d ∧ d ≠ a) ?_ hsplit hab ⟨hab, hlt, d, hbd, hda⟩
  rintro a b k ⟨hab, hlt, d, hbd, hda⟩ hak hkb
  have hpos : pos k < pos a := by
    obtain ⟨before, after, hsplit⟩ := List.append_of_mem (hmem hab)
    rcases mem_before_or_after horder hsplit (hmem hak.symm) hak.ne' with ⟨-, hpos⟩ | ⟨-, hpos⟩
    · exact hpos
    · exact absurd ⟨k, a, b, d, hak.symm, hab, hbd, hkb, hda.symm, hpos, hlt⟩ hfree
  exact ⟨hpos, hak.symm, hpos, b, hab, hkb.symm⟩

/-- On the way back a clique sends everything, if no path is blocked. -/
theorem sent_on_second_sweep (horder : order.Pairwise (pos · < pos ·))
    (hmem : ∀ {u w}, G.Adj u w → u ∈ order) (hfree : ¬ Blocked G pos)
    (hsplit : order = before ++ a :: after) (hab : G.Adj a b) :
    spreadAll G (spreadAll G S order) (after.reverse ++ [a]) a b := by
  induction hn : after.length using Nat.strong_induction_on generalizing before after a b with
  | _ n ih =>
    refine spreadAll_concat hab fun k hak hkb => ?_
    rcases mem_before_or_after horder hsplit (hmem hak.symm) hak.ne' with ⟨hk, hpos⟩ | ⟨hk, hpos⟩
    · obtain ⟨front, back, rfl⟩ := List.append_of_mem hk
      have hsplit' : order = front ++ k :: (back ++ a :: after) :=
        hsplit.trans (by rw [List.append_assoc, List.cons_append])
      have hsent : spreadAll G S (front ++ [k]) k a :=
        sent_on_first_sweep horder hmem hfree hsplit' hak.symm hab hkb.symm hpos
      refine spreadAll_of_sent ?_ _
      rw [hsplit', List.append_cons]
      exact spreadAll_of_append hsent _
    · obtain ⟨front, back, rfl⟩ := List.append_of_mem hk
      have hsent := ih back.length (by rw [← hn]; simp; omega)
        (hsplit.trans (by rw [List.append_cons before a, ← List.append_assoc])) hak.symm rfl
      rw [List.reverse_append, List.reverse_cons]
      exact spreadAll_of_append hsent front.reverse

/-- A blocked path keeps its last message from being sent. -/
theorem not_sent_of_blocked (horder : order.Pairwise (pos · < pos ·))
    (hmem : ∀ {u w}, G.Adj u w → u ∈ order) (hab : G.Adj a b) (hbc : G.Adj b c) (hac : a ≠ c)
    (hbd : b ≠ d) (hba : pos b < pos a) (hbc' : pos b < pos c) :
    ¬ spreadAll G (fun _ _ => False) (order ++ order.reverse) c d := by
  obtain ⟨front, back, hsplit⟩ := List.append_of_mem (hmem hbc)
  have hnot : ∀ {k}, pos b < pos k → k ∉ front := fun hpos hk => by
    rw [hsplit] at horder
    exact lt_asymm hpos ((List.pairwise_append.1 horder).2.2 _ hk b List.mem_cons_self)
  have hb : b ∉ back := fun hb => by
    rw [hsplit] at horder
    exact lt_irrefl _ ((List.pairwise_cons.1 (List.pairwise_append.1 horder).2.1).1 b hb)
  have hclosed : ∀ a b k, (fun _ _ => False : ℕ → ℕ → Prop) a b → G.Adj a k → k ≠ b →
      (fun _ _ => False : ℕ → ℕ → Prop) k a := fun _ _ _ h => h.elim
  -- When `b` is visited for the first time, `a` has not been visited.
  have hearly : ¬ spreadAll G (fun _ _ => False) (front ++ [b]) b c := by
    intro h
    have hsent := received_of_spreadAll hclosed _ b c a h hab.symm hac
    rcases mem_of_spreadAll hsent with hf | hf
    · exact hf
    · rcases List.mem_append.1 hf with hf | hf
      · exact hnot hba hf
      · exact hab.ne (List.mem_singleton.1 hf)
  -- On the way back `c` is visited before `b` is visited again.
  have hlate : ¬ spreadAll G (fun _ _ => False) (front ++ [b] ++ (back ++ back.reverse)) b c := by
    intro h
    rw [spreadAll_append] at h
    rcases mem_of_spreadAll h with h | h
    · exact hearly h
    · rcases List.mem_append.1 h with h | h
      · exact hb h
      · exact hb (List.mem_reverse.1 h)
  have hvisits : order ++ order.reverse
      = front ++ [b] ++ (back ++ back.reverse) ++ ([b] ++ front.reverse) := by
    rw [hsplit]
    simp
  rw [hvisits, spreadAll_append]
  intro h
  rcases mem_of_spreadAll h with h | h
  · exact hlate (received_of_spreadAll hclosed _ c d b h hbc.symm hbd)
  · rcases List.mem_append.1 h with h | h
    · exact hbc.ne (List.mem_singleton.1 h).symm
    · exact hnot hbc' (List.mem_reverse.1 h)

/-- Two sweeps send every message exactly if no path is blocked. -/
theorem all_sent_iff (horder : order.Pairwise (pos · < pos ·))
    (hmem : ∀ {u w}, G.Adj u w → u ∈ order) :
    (∀ a b, G.Adj a b → spreadAll G (fun _ _ => False) (order ++ order.reverse) a b)
      ↔ ¬ Blocked G pos := by
  constructor
  · rintro hall ⟨a, b, c, d, hab, hbc, hcd, hac, hbd, hba, hbc'⟩
    exact not_sent_of_blocked horder hmem hab hbc hac hbd hba hbc' (hall c d hcd)
  · intro hfree a b hab
    obtain ⟨front, back, hsplit⟩ := List.append_of_mem (hmem hab)
    have hsent := sent_on_second_sweep (S := fun _ _ => False) horder hmem hfree hsplit hab
    have hvisits : order ++ order.reverse = order ++ (back.reverse ++ [a]) ++ front.reverse := by
      rw [hsplit]
      simp
    rw [hvisits]
    refine spreadAll_of_append ?_ _
    rwa [spreadAll_append]

end Sweeps

end ExactInference
