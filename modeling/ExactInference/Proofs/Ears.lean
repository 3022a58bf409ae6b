import ExactInference.Proofs.JoinForest

/-!
# Taking out ears

An ear of a collection of cliques shares nothing with the others that one of them does not hold.
Ears can be taken out of a join forest until one clique is left, since a leaf is an ear. Taking out
an ear never spoils that, whichever ear it is: another ear stays one, unless the two are each
other's witnesses; then both share the same with all the others, and one may take the place of the
other. Striking variables from all cliques does not spoil it either, nor does leaving out cliques
that lie inside others. If no clique lies inside another one, some ear holds a variable of its own.
-/

namespace ExactInference

variable {S T : ℕ → Finset String} {R J : Finset ℕ} {i j : ℕ}

/-- A clique that shares with the others only what one of them holds. -/
def IsEar (S : ℕ → Finset String) (R : Finset ℕ) (i : ℕ) : Prop :=
  i ∈ R ∧ ∃ j ∈ R, j ≠ i ∧ ∀ k ∈ R, k ≠ i → S i ∩ S k ⊆ S j

/-- A collection from which ears can be taken out until at most one clique is left. -/
inductive Reducible (S : ℕ → Finset String) : Finset ℕ → Prop
  /-- Nothing is left to take out. -/
  | single {R : Finset ℕ} : R.card ≤ 1 → Reducible S R
  /-- An ear is taken out. -/
  | ear {R : Finset ℕ} {i : ℕ} : IsEar S R i → Reducible S (R.erase i) → Reducible S R

theorem IsEar.one_lt_card (h : IsEar S R i) : 1 < R.card := by
  obtain ⟨hi, j, hj, hji, -⟩ := h
  exact Finset.one_lt_card.2 ⟨j, hj, i, hi, hji⟩

/-- What can be reduced depends on what the cliques share and not on their names. -/
theorem Reducible.image {σ : ℕ → ℕ} (h : Reducible S R) (hinj : Set.InjOn σ R)
    (hshared : ∀ a ∈ R, ∀ b ∈ R, a ≠ b → T (σ a) ∩ T (σ b) = S a ∩ S b) :
    Reducible T (R.image σ) := by
  induction h with
  | single hcard => exact .single (Finset.card_image_le.trans hcard)
  | @ear R i hear _ ih =>
    obtain ⟨hi, j, hj, hji, hsub⟩ := hear
    have himage : (R.image σ).erase (σ i) = (R.erase i).image σ := by
      ext k
      simp only [Finset.mem_erase, Finset.mem_image]
      constructor
      · rintro ⟨hk, a, ha, rfl⟩
        exact ⟨a, ⟨fun he => hk (he ▸ rfl), ha⟩, rfl⟩
      · rintro ⟨a, ⟨hai, ha⟩, rfl⟩
        exact ⟨fun he => hai (hinj ha hi he), a, ha, rfl⟩
    refine .ear ⟨Finset.mem_image_of_mem σ hi, σ j, Finset.mem_image_of_mem σ hj,
      fun he => hji (hinj hj hi he), fun k hk hki => ?_⟩ (himage ▸ ih ?_ ?_)
    · obtain ⟨a, ha, rfl⟩ := Finset.mem_image.1 hk
      have hai : a ≠ i := fun he => hki (he ▸ rfl)
      rw [hshared i hi a ha hai.symm]
      refine (Finset.subset_inter Finset.inter_subset_left (hsub a ha hai)).trans ?_
      rw [← hshared i hi j hj hji.symm]
      exact Finset.inter_subset_right
    · exact hinj.mono fun a ha => Finset.mem_of_mem_erase ha
    · exact fun a ha b hb => hshared a (Finset.mem_of_mem_erase ha) b (Finset.mem_of_mem_erase hb)

/-- An ear stays one when another ear is taken out, unless both are each other's witnesses. -/
theorem IsEar.erase (hi : IsEar S R i) (hj : IsEar S R j) (hij : i ≠ j) :
    IsEar S (R.erase j) i ∨
      (∀ k ∈ R, k ≠ i → S i ∩ S k ⊆ S j) ∧ ∀ k ∈ R, k ≠ j → S j ∩ S k ⊆ S i := by
  obtain ⟨hiR, w, hw, hwi, hsub⟩ := hi
  obtain ⟨-, u, hu, huj, hsub'⟩ := hj
  by_cases hwj : w = j
  · subst hwj
    by_cases hui : u = i
    · subst hui
      exact Or.inr ⟨hsub, hsub'⟩
    · -- What both share with a third clique, the other witness holds as well.
      refine Or.inl ⟨Finset.mem_erase.2 ⟨hij, hiR⟩, u, Finset.mem_erase.2 ⟨huj, hu⟩, hui,
        fun k hk hki v hv => ?_⟩
      obtain ⟨hkw, hkR⟩ := Finset.mem_erase.1 hk
      have hvw := hsub k hkR hki hv
      exact hsub' k hkR hkw (Finset.mem_inter.2 ⟨hvw, Finset.mem_of_mem_inter_right hv⟩)
  · exact Or.inl ⟨Finset.mem_erase.2 ⟨hij, hiR⟩, w, Finset.mem_erase.2 ⟨hwj, hw⟩, hwi,
      fun k hk hki => hsub k (Finset.mem_of_mem_erase hk) hki⟩

/-- Of two ears that are each other's witnesses one may take the place of the other. -/
theorem Reducible.exchange (h : Reducible S (R.erase j)) (hi : i ∈ R) (hj : j ∈ R)
    (hij : ∀ k ∈ R, k ≠ i → S i ∩ S k ⊆ S j) (hji : ∀ k ∈ R, k ≠ j → S j ∩ S k ⊆ S i) :
    Reducible S (R.erase i) := by
  have hsame : ∀ k ∈ R, k ≠ i → k ≠ j → S j ∩ S k = S i ∩ S k := fun k hk hki hkj =>
    Finset.Subset.antisymm
      (Finset.subset_inter (hji k hk hkj) Finset.inter_subset_right)
      (Finset.subset_inter (hij k hk hki) Finset.inter_subset_right)
  have himage : R.erase i = (R.erase j).image (Equiv.swap i j) := by
    ext k
    have hback : k ∈ (R.erase j).image (Equiv.swap i j) ↔ Equiv.swap i j k ∈ R.erase j := by
      rw [Finset.mem_image]
      constructor
      · rintro ⟨a, ha, rfl⟩
        rwa [Equiv.swap_apply_self]
      · exact fun hk => ⟨_, hk, Equiv.swap_apply_self i j k⟩
    rw [hback, Finset.mem_erase, Finset.mem_erase]
    by_cases hki : k = i
    · simp [hki]
    · by_cases hkj : k = j
      · have hne : j ≠ i := hkj ▸ hki
        simp [hkj, hne, hne.symm, hi, hj]
      · simp [Equiv.swap_apply_of_ne_of_ne hki hkj, hki, hkj]
  rw [himage]
  refine h.image (Equiv.swap i j).injective.injOn fun a ha b hb hab => ?_
  obtain ⟨haj, haR⟩ := Finset.mem_erase.1 ha
  obtain ⟨hbj, hbR⟩ := Finset.mem_erase.1 hb
  by_cases hai : a = i
  · subst hai
    rw [Equiv.swap_apply_left, Equiv.swap_apply_of_ne_of_ne hab.symm hbj]
    exact hsame b hbR hab.symm hbj
  · rw [Equiv.swap_apply_of_ne_of_ne hai haj]
    by_cases hbi : b = i
    · subst hbi
      rw [Equiv.swap_apply_left, Finset.inter_comm, Finset.inter_comm (S a)]
      exact hsame a haR hab haj
    · rw [Equiv.swap_apply_of_ne_of_ne hbi hbj]

/-- Taking out an ear, whichever it is, leaves a collection that can still be reduced. -/
theorem Reducible.erase (h : Reducible S R) (hi : IsEar S R i) : Reducible S (R.erase i) := by
  induction h generalizing i with
  | single hcard => exact absurd hi.one_lt_card (by omega)
  | @ear R j hj hrest ih =>
    by_cases hij : i = j
    · exact hij ▸ hrest
    · rcases hi.erase hj hij with hi' | ⟨hsub, hsub'⟩
      · rcases hj.erase hi (Ne.symm hij) with hj' | ⟨hsub', hsub⟩
        · refine .ear hj' ?_
          rw [Finset.erase_right_comm]
          exact ih hi'
        · exact hrest.exchange hi.1 hj.1 hsub hsub'
      · exact hrest.exchange hi.1 hj.1 hsub hsub'

/-- Striking variables from all cliques leaves a collection that can be reduced. -/
theorem Reducible.sdiff (h : Reducible S R) (struck : Finset String) :
    Reducible (fun i => S i \ struck) R := by
  induction h with
  | single hcard => exact .single hcard
  | ear hear _ ih =>
    obtain ⟨hi, j, hj, hji, hsub⟩ := hear
    refine .ear ⟨hi, j, hj, hji, fun k hk hki v hv => ?_⟩ ih
    obtain ⟨hvi, hvk⟩ := Finset.mem_inter.1 hv
    obtain ⟨hvi, hout⟩ := Finset.mem_sdiff.1 hvi
    exact Finset.mem_sdiff.2
      ⟨hsub k hk hki (Finset.mem_inter.2 ⟨hvi, (Finset.mem_sdiff.1 hvk).1⟩), hout⟩

/-- A clique inside another one is an ear, so leaving out cliques that lie inside others leaves a
collection that can be reduced. -/
theorem Reducible.of_subset (h : Reducible S R) (hsub : J ⊆ R)
    (hinside : ∀ i ∈ R, ∃ j ∈ J, S i ⊆ S j) : Reducible S J := by
  induction R using Finset.strongInduction with
  | H R ih =>
    by_cases hall : R ⊆ J
    · rwa [hsub.antisymm hall]
    · obtain ⟨i, hi, hout⟩ := Finset.not_subset.1 hall
      obtain ⟨j, hj, hij⟩ := hinside i hi
      have hear : IsEar S R i := ⟨hi, j, hsub hj, fun he => hout (he ▸ hj),
        fun k _ _ => Finset.inter_subset_left.trans hij⟩
      exact ih _ (Finset.erase_ssubset hi) (h.erase hear)
        (fun k hk => Finset.mem_erase.2 ⟨fun he => hout (he ▸ hk), hsub hk⟩)
        fun k hk => hinside k (Finset.mem_of_mem_erase hk)

/-- A forest with an edge has a vertex with one neighbor. -/
theorem exists_leaf {G : SimpleGraph ℕ} (hG : G.IsAcyclic) (hin : ∀ {a b}, G.Adj a b → a ∈ R)
    {a b : ℕ} (hab : G.Adj a b) : ∃ l w, G.Adj l w ∧ ∀ k, G.Adj l k → k = w := by
  refine OnSide.edge_induct (P := fun _ _ => ∃ l w, G.Adj l w ∧ ∀ k, G.Adj l k → k = w) hG hin
    (fun {a b} hab ih => ?_) hab
  by_cases hleaf : ∀ k, G.Adj a k → k = b
  · exact ⟨a, b, hab, hleaf⟩
  · push Not at hleaf
    obtain ⟨c, hac, hcb⟩ := hleaf
    exact ih hac hcb

/-- A leaf of a join forest is an ear; a clique without neighbors shares nothing. -/
theorem isEar_of_leaf {G : SimpleGraph ℕ}
    (hconn : ∀ v, ∀ i ∈ R, ∀ j ∈ R, v ∈ S i → v ∈ S j → (holding G S v).Reachable i j)
    {l w : ℕ} (hl : l ∈ R) (hw : w ∈ R) (hwl : w ≠ l) (hleaf : ∀ k, G.Adj l k → k = w) :
    IsEar S R l := by
  refine ⟨hl, w, hw, hwl, fun k hk hkl v hv => ?_⟩
  obtain ⟨hvl, hvk⟩ := Finset.mem_inter.1 hv
  have hout : k = l ∨ v ∈ S w := reachable_induct (P := fun u => u = l ∨ v ∈ S w)
    (hconn v l hl k hk hvl hvk) (Or.inl rfl) fun u x hu hadj => by
      rcases hu with rfl | hu
      · exact Or.inr (hleaf x hadj.1 ▸ hadj.2.2)
      · exact Or.inr hu
  exact hout.resolve_left hkl

/-- Without a leaf the other cliques of a join forest stay connected. -/
theorem reachable_without_leaf {G : SimpleGraph ℕ} {v : String} {l w : ℕ}
    (hleaf : ∀ k, G.Adj l k → k = w) (hi : i ≠ l) (hj : j ≠ l)
    (h : (holding G S v).Reachable i j) :
    (holding (G.deleteIncidenceSet l) S v).Reachable i j := by
  have hkeep : ∀ {u x}, (holding G S v).Adj u x → u ≠ l → x ≠ l →
      (holding (G.deleteIncidenceSet l) S v).Adj u x := fun hadj hu hx =>
    ⟨G.deleteIncidenceSet_adj.2 ⟨hadj.1, hu, hx⟩, hadj.2⟩
  -- Whoever visits the leaf comes from its neighbor and goes back there.
  have hwalk := reachable_induct
    (P := fun u => (holding (G.deleteIncidenceSet l) S v).Reachable i (if u = l then w else u))
    h (by rw [if_neg hi]) fun u x hu hadj => by
      by_cases hul : u = l
      · subst hul
        rw [if_pos rfl] at hu
        have hx := hleaf x hadj.1
        rwa [if_neg hadj.ne', hx]
      · rw [if_neg hul] at hu
        by_cases hxl : x = l
        · subst hxl
          rwa [if_pos rfl, ← hleaf u hadj.1.symm]
        · rw [if_neg hxl]
          exact hu.trans (hkeep hadj hul hxl).reachable
  rwa [if_neg hj] at hwalk

/-- A collection with a join forest can be reduced. -/
theorem reducible_of_connected {G : SimpleGraph ℕ} (hG : G.IsAcyclic)
    (hin : ∀ {a b}, G.Adj a b → a ∈ R)
    (hconn : ∀ v, ∀ i ∈ R, ∀ j ∈ R, v ∈ S i → v ∈ S j → (holding G S v).Reachable i j) :
    Reducible S R := by
  induction hn : R.card generalizing R G with
  | zero => exact .single (by omega)
  | succ n ih =>
    by_cases hone : R.card ≤ 1
    · exact .single hone
    · have hleaf : ∃ l ∈ R, ∃ w ∈ R, w ≠ l ∧ ∀ k, G.Adj l k → k = w := by
        by_cases hedge : ∃ a b, G.Adj a b
        · obtain ⟨a, b, hab⟩ := hedge
          obtain ⟨l, w, hlw, hleaf⟩ := exists_leaf hG hin hab
          exact ⟨l, hin hlw, w, hin hlw.symm, hlw.ne', hleaf⟩
        · push Not at hedge
          obtain ⟨l, hl, w, hw, hlw⟩ := Finset.one_lt_card.1 (not_le.1 hone)
          exact ⟨l, hl, w, hw, hlw.symm, fun k hk => absurd hk (hedge l k)⟩
      obtain ⟨l, hl, w, hw, hwl, hleaf⟩ := hleaf
      refine .ear (isEar_of_leaf hconn hl hw hwl hleaf)
        (ih (G := G.deleteIncidenceSet l) (hG.anti (G.deleteIncidenceSet_le l)) ?_ ?_ ?_)
      · intro a b hab
        obtain ⟨hab, hal, -⟩ := G.deleteIncidenceSet_adj.1 hab
        exact Finset.mem_erase.2 ⟨hal, hin hab⟩
      · intro v i hi j hj hvi hvj
        obtain ⟨hil, hi⟩ := Finset.mem_erase.1 hi
        obtain ⟨hjl, hj⟩ := Finset.mem_erase.1 hj
        exact reachable_without_leaf hleaf hil hjl (hconn v i hi j hj hvi hvj)
      · rw [Finset.card_erase_of_mem hl, hn, Nat.add_sub_cancel]

/-- The cliques of a join forest can be reduced. -/
theorem IsJoinForest.reducible {size : ℕ} {G : SimpleGraph ℕ} (h : IsJoinForest size G S) :
    Reducible S (Finset.range size) :=
  reducible_of_connected h.acyclic (fun hab => Finset.mem_range.2 (h.lt_size hab))
    fun v i hi j hj => h.connected v i j (Finset.mem_range.1 hi) (Finset.mem_range.1 hj)

/-- No clique lies inside another one, except that one clique may hold nothing. -/
def Incomparable (S : ℕ → Finset String) (R : Finset ℕ) : Prop :=
  ∀ i ∈ R, ∀ j ∈ R, i ≠ j → S i ⊆ S j → S i = ∅ ∧ S j ≠ ∅

/-- The cliques of a collection in which none lies inside another one can be reduced, if they are
found in a collection that can be reduced and every clique of that one lies inside some of them. -/
theorem Reducible.of_incomparable (h : Reducible S R) (hT : Incomparable T J)
    (hfound : ∀ j ∈ J, ∃ i ∈ R, S i = T j) (hinside : ∀ i ∈ R, ∃ j ∈ J, S i ⊆ T j) :
    Reducible T J := by
  choose! place hplace hsame using hfound
  have hinj : Set.InjOn place J := fun j hj k hk he => by
    by_contra hjk
    have heq : T j = T k := by rw [← hsame j hj, ← hsame k hk, he]
    obtain ⟨hnil, hne⟩ := hT j hj k hk hjk heq.subset
    exact hne (heq ▸ hnil)
  have hchosen : Reducible S (J.image place) := by
    refine h.of_subset (fun i hi => ?_) fun i hi => ?_
    · obtain ⟨j, hj, rfl⟩ := Finset.mem_image.1 hi
      exact hplace j hj
    · obtain ⟨j, hj, hsub⟩ := hinside i hi
      exact ⟨place j, Finset.mem_image_of_mem place hj, hsame j hj ▸ hsub⟩
  have hback : ∀ j ∈ J, Function.invFunOn place J (place j) = j := fun j hj =>
    hinj.leftInvOn_invFunOn hj
  have himage : (J.image place).image (Function.invFunOn place J) = J := by
    rw [Finset.image_image]
    exact (Finset.image_congr fun j hj => hback j hj).trans Finset.image_id
  rw [← himage]
  refine hchosen.image (fun a ha b hb he => ?_) fun a ha b hb _ => ?_
  · obtain ⟨j, hj, rfl⟩ := Finset.mem_image.1 ha
    obtain ⟨k, hk, rfl⟩ := Finset.mem_image.1 hb
    rw [hback j hj, hback k hk] at he
    rw [he]
  · obtain ⟨j, hj, rfl⟩ := Finset.mem_image.1 ha
    obtain ⟨k, hk, rfl⟩ := Finset.mem_image.1 hb
    rw [hback j hj, hback k hk, hsame j hj, hsame k hk]

/-- An ear that holds anything holds a variable of its own. -/
theorem IsEar.exists_own (hi : IsEar S R i) (hS : Incomparable S R) (hne : S i ≠ ∅) :
    ∃ v ∈ S i, ∀ k ∈ R, v ∈ S k → k = i := by
  obtain ⟨hiR, j, hj, hji, hsub⟩ := hi
  have hout : ¬ S i ⊆ S j := fun hle => hne (hS i hiR j hj hji.symm hle).1
  obtain ⟨v, hv, hvj⟩ := Finset.not_subset.1 hout
  refine ⟨v, hv, fun k hk hvk => ?_⟩
  by_contra hki
  exact hvj (hsub k hk hki (Finset.mem_inter.2 ⟨hv, hvk⟩))

/-- A collection that can be reduced has an ear that holds anything. -/
theorem Reducible.exists_ear (h : Reducible S R) (hS : Incomparable S R) (hR : 1 < R.card) :
    ∃ i, IsEar S R i ∧ S i ≠ ∅ := by
  cases h with
  | single hcard => omega
  | @ear _ i hi hrest =>
    by_cases hemp : S i = ∅
    · -- Any other clique holds something, and an ear without the empty clique is one with it.
      have hother : ∀ k ∈ R, k ≠ i → S k ≠ ∅ := fun k hk hki =>
        (hS i hi.1 k hk hki.symm (by simp [hemp])).2
      cases hrest with
      | single hcard =>
        obtain ⟨j, hj, hji⟩ := Finset.exists_mem_ne hR i
        have honly : ∀ k ∈ R, k ≠ j → k = i := by
          intro k hk hkj
          by_contra hki
          have hlt : 1 < (R.erase i).card := Finset.one_lt_card.2
            ⟨k, Finset.mem_erase.2 ⟨hki, hk⟩, j, Finset.mem_erase.2 ⟨hji, hj⟩, hkj⟩
          omega
        refine ⟨j, ⟨hj, i, hi.1, hji.symm, fun k hk hkj => ?_⟩, hother j hj hji⟩
        rw [honly k hk hkj]
        exact Finset.inter_subset_right
      | @ear _ j hj _ =>
        obtain ⟨hjR, w, hw, hwj, hsub⟩ := hj
        obtain ⟨hji, hjR⟩ := Finset.mem_erase.1 hjR
        refine ⟨j, ⟨hjR, w, Finset.mem_of_mem_erase hw, hwj, fun k hk hkj => ?_⟩, hother j hjR hji⟩
        by_cases hki : k = i
        · rw [hki, hemp, Finset.inter_empty]
          exact Finset.empty_subset _
        · exact hsub k (Finset.mem_erase.2 ⟨hki, hk⟩) hkj
    · exact ⟨i, hi, hemp⟩

end ExactInference
