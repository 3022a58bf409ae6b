import ExactInference.Proofs.Coherence

/-!
# The protocol of message passing

`Progress` is what holds of a well-built tree at every moment, whatever messages were asked for in
whatever order: a running marginal is the clique's factor times the messages that were folded in,
and a message is the exact marginal of everything on the sender's side of the edge. The second
message on an edge is the late one. The receiver's own message was divided out of it, so it is zero
where that message is zero. This does no harm, because a clique sends at most one message before it
has received everything; where that message is zero, so is the product of all that it was made from.
-/

namespace ExactInference

variable {W L : Type}

/-- A product over a list of indices without repetition is a product over the set of them. -/
theorem prod_map_toNat {M : Type} [CommMonoid M] {ns : List Int} (hns : ns.Nodup) {s : Finset ℕ}
    (hs : ∀ n, n ∈ ns ↔ ∃ k ∈ s, n = ((k : ℕ) : Int)) (f : ℕ → M) :
    (ns.map fun n => f n.toNat).prod = ∏ k ∈ s, f k := by
  have hnodup : (ns.map Int.toNat).Nodup := by
    refine List.Nodup.map_on (fun m hm n hn he => ?_) hns
    obtain ⟨j, -, rfl⟩ := (hs m).1 hm
    obtain ⟨k, -, rfl⟩ := (hs n).1 hn
    simpa using he
  have hset : (ns.map Int.toNat).toFinset = s := by
    ext k
    simp only [List.mem_toFinset, List.mem_map]
    constructor
    · rintro ⟨n, hn, rfl⟩
      obtain ⟨j, hj, rfl⟩ := (hs n).1 hn
      simpa using hj
    · exact fun hk => ⟨k, (hs k).2 ⟨k, hk, rfl⟩, Int.toNat_natCast k⟩
  rw [← hset, List.prod_toFinset f hnodup, List.map_map]
  rfl

namespace CliqueTree

variable {t u : CliqueTree W L} {a b i : ℕ} {c : Clique W L} {axes : List Axis} {ns : List Int}
  {mode : Mode} {x y : JointState} [Semifield W] [LinearOrder W] [WeightScale W] [WeightScale L]
  [LogConversion W L]

/-- The exact marginal of everything on the sender's side of an edge, over the shared variables. -/
noncomputable def sideMarginal (mode : Mode) (axes : List Axis) (t : CliqueTree W L) (a b : ℕ) :
    JointState → W :=
  cliqueMarginal mode axes t.scopeOf t.weightOf (side t.size t.graph a b)
    (t.scopeOf a ∩ t.scopeOf b)

/-- The exact marginal of a whole tree of the forest, over the variables of one of its cliques. -/
noncomputable def treeMarginal (mode : Mode) (axes : List Axis) (t : CliqueTree W L) (i : ℕ) :
    JointState → W :=
  cliqueMarginal mode axes t.scopeOf t.weightOf (treeOf t.size t.graph i) (t.scopeOf i)

theorem sideMarginal_eq_of_frame_eq (h : t.frame = u.frame) :
    t.sideMarginal mode axes = u.sideMarginal mode axes := by
  funext a b
  rw [sideMarginal, sideMarginal, size_eq_of_frame_eq h, graph_eq_of_frame_eq h,
    scopeOf_eq_of_frame_eq h, weightOf_eq_of_frame_eq h]

theorem treeMarginal_eq_of_frame_eq (h : t.frame = u.frame) :
    t.treeMarginal mode axes = u.treeMarginal mode axes := by
  funext a
  rw [treeMarginal, treeMarginal, size_eq_of_frame_eq h, graph_eq_of_frame_eq h,
    scopeOf_eq_of_frame_eq h, weightOf_eq_of_frame_eq h]

omit [LinearOrder W] in
/-- What has arrived weighs as the messages do. -/
theorem prod_weightAt_arrived (h : t.Ready a ns) (x : JointState) :
    ((t.arrived a ns).map (Factor.weightAt · x)).prod
      = (ns.map fun n => t.messageWeight n.toNat a x).prod := by
  obtain ⟨m, harrived, hm⟩ := exists_arrived h
  have hperm : (ascending ns).Perm ns := arrange_perm _ _
  rw [harrived, List.map_map, ← (hperm.map _).prod_eq]
  refine congrArg List.prod (List.map_congr_left fun n hn => ?_)
  obtain ⟨k, rfl, -, hmk⟩ := hm n hn
  rw [Function.comp_apply, Int.toNat_natCast, messageWeight_eq hmk]

/-- What the running marginals and the messages of a tree weigh. -/
structure ExactWeights (mode : Mode) (axes : List Axis) (t : CliqueTree W L)
    (late : ℕ → ℕ → Prop) : Prop where
  /-- A running marginal is the factor times the messages that were folded in. -/
  marginal_weight : ∀ {i : ℕ} {c : Clique W L} {x : JointState}, t.cliques[i]? = some c →
    InRange axes x → c.marginal.weightAt x
      = c.factor.weightAt x * (c.folded.map fun n => t.messageWeight n.toNat i x).prod
  /-- A message is exact unless it is late and the receiver's own message is zero. -/
  exact_of : ∀ {a b : ℕ} {x : JointState}, t.Sent a b → InRange axes x →
    ¬ (late a b ∧ t.messageWeight b a x = 0) →
    t.messageWeight a b x = t.sideMarginal mode axes a b x
  /-- A late message is zero where the receiver's own message is zero. -/
  zero_of : ∀ {a b : ℕ} {x : JointState}, late a b → InRange axes x → t.messageWeight b a x = 0 →
    t.messageWeight a b x = 0

/-- Messages stay what they are when they are folded in, and the marginal of the clique takes in
those that are. -/
theorem ExactWeights.folding {late : ℕ → ℕ → Prop} (h : ExactWeights mode axes t late)
    (hc : t.cliques[a]? = some c) (hns : ns.Nodup) (hfold : t.Foldable a c ns) {m : Factor W L}
    (hweight : ∀ x, InRange axes x → m.weightAt x
      = c.marginal.weightAt x * (ns.map fun n => t.messageWeight n.toNat a x).prod) :
    ExactWeights mode axes (t.folding a m ns) late := by
  have hframe := frame_folding t a m ns
  constructor
  case marginal_weight =>
    intro i d x hd hx
    rw [messageWeight_folding]
    by_cases hi : i = a
    · subst hi
      rw [Coherent.cliques_folding hc hns hfold m] at hd
      cases hd
      rw [hweight x hx, h.marginal_weight hc hx, List.map_append, List.prod_append, mul_assoc]
    · rw [cliques_folding_of_ne t hi] at hd
      exact h.marginal_weight hd hx
  case exact_of =>
    intro u w x huw hx hlate
    rw [sent_folding] at huw
    rw [messageWeight_folding] at hlate ⊢
    rw [sideMarginal_eq_of_frame_eq hframe]
    exact h.exact_of huw hx hlate
  case zero_of =>
    intro u w x hlate hx hzero
    rw [messageWeight_folding] at hzero ⊢
    exact h.zero_of hlate hx hzero

/-- A message that can be sent: it is exact, or zero where the receiver's own message is zero. -/
structure Sendable (mode : Mode) (axes : List Axis) (t : CliqueTree W L) (a b : ℕ)
    (m : Factor W L) : Prop where
  /-- It is exact unless the receiver's own message has arrived and is zero. -/
  weight_eq : ∀ {x}, InRange axes x → ¬ (t.Sent b a ∧ t.messageWeight b a x = 0) →
    m.weightAt x = t.sideMarginal mode axes a b x
  /-- Otherwise it is zero. -/
  weight_eq_zero : ∀ {x}, InRange axes x → t.Sent b a → t.messageWeight b a x = 0 →
    m.weightAt x = 0

/-- A new message is folded nowhere and leaves the old ones what they are. -/
theorem ExactWeights.sending {late : ℕ → ℕ → Prop} (h : ExactWeights mode axes t late)
    (htracked : Tracked axes t late) (hadj : t.graph.Adj a b) (hnew : ¬ t.Sent a b)
    {m : Factor W L} (hm : Sendable mode axes t a b m) :
    ExactWeights mode axes (t.sending a b m) fun u w => late u w ∨ u = a ∧ w = b ∧ t.Sent b a := by
  have ha := htracked.wired.lt_size hadj
  have hframe := frame_sending t a b m
  have hself := messageWeight_sending_self ha b m
  have hback : (t.sending a b m).messageWeight b a = t.messageWeight b a :=
    messageWeight_sending_of_ne t (fun he => hadj.ne he.2) m
  have hold : ∀ {u w}, t.Sent u w →
      (t.sending a b m).messageWeight u w = t.messageWeight u w := by
    intro u w huw
    have hne : ¬ (u = a ∧ w = b) := fun he => hnew (he.1 ▸ he.2 ▸ huw)
    exact messageWeight_sending_of_ne t hne m
  constructor
  case marginal_weight =>
    intro i d x hd hx
    obtain ⟨e, he, hfactor, hmarginal, hf, -⟩ := exists_of_cliques_sending hd
    rw [hfactor, hmarginal, hf, h.marginal_weight he hx]
    congr 2
    refine List.map_congr_left fun n hn => ?_
    obtain ⟨k, rfl, -, hki⟩ := htracked.folded_sent he hn
    rw [Int.toNat_natCast, hold hki]
  case exact_of =>
    intro u w x huw hx hlate
    rw [sent_sending ha] at huw
    rw [sideMarginal_eq_of_frame_eq hframe]
    rcases huw with huw | ⟨rfl, rfl⟩
    · rw [hold huw]
      refine h.exact_of huw hx fun hl => hlate ⟨Or.inl hl.1, ?_⟩
      rw [hold (htracked.late_sent hl.1).2.1]
      exact hl.2
    · rw [hself]
      refine hm.weight_eq hx fun hl => hlate ⟨Or.inr ⟨rfl, rfl, hl.1⟩, ?_⟩
      rw [hback]
      exact hl.2
  case zero_of =>
    rintro u w x (hlate | ⟨rfl, rfl, hba⟩) hx hz
    · obtain ⟨h₁, h₂, -⟩ := htracked.late_sent hlate
      rw [hold h₂] at hz
      rw [hold h₁]
      exact h.zero_of hlate hx hz
    · rw [hback] at hz
      rw [hself]
      exact hm.weight_eq_zero hx hba hz

/-- What holds of a tree at every moment of message passing. The relation tells which messages are
late. -/
structure Progress (mode : Mode) (axes : List Axis) (t : CliqueTree W L) (late : ℕ → ℕ → Prop) :
    Prop extends Tracked axes t late, ExactWeights mode axes t late where
  /-- The edges make a join forest. -/
  forest : IsJoinForest t.size t.graph t.scopeOf

namespace Progress

variable {late : ℕ → ℕ → Prop}

/-- The tree is well built. -/
theorem built (h : Progress mode axes t late) : t.WellBuilt axes where
  toWired := h.wired
  forest := h.forest

/-- A message weighs a joint state by the variables that both ends share. -/
theorem reads_messageWeight (h : Progress mode axes t late) (hsent : t.Sent a b) :
    Reads (t.messageWeight a b) (t.scopeOf a ∩ t.scopeOf b) := by
  obtain ⟨m, hm⟩ := Option.isSome_iff_exists.1 hsent
  have hfun : t.messageWeight a b = m.weightAt := funext fun x => messageWeight_eq hm x
  rw [hfun, ← (h.message_scope hm).2]
  exact m.reads_weightAt

/-- Which messages are late only matters up to equivalence. -/
theorem congr_late {late' : ℕ → ℕ → Prop} (h : Progress mode axes t late)
    (hiff : ∀ a b, late a b ↔ late' a b) : Progress mode axes t late' := by
  have he : late = late' := funext fun a => funext fun b => propext (hiff a b)
  exact he ▸ h

/-- The running marginal of a clique as a product over the neighbors that it has folded in. -/
theorem marginal_eq_prod (h : Progress mode axes t late) (hc : t.cliques[a]? = some c)
    (near : Finset ℕ) (hfolded : ∀ n, n ∈ c.folded ↔ ∃ k ∈ near, n = ((k : ℕ) : Int))
    (hx : InRange axes x) :
    c.marginal.weightAt x = t.weightOf a x * ∏ k ∈ near, t.messageWeight k a x := by
  rw [h.marginal_weight hc hx, ← weightOf_eq hc]
  congr 1
  exact prod_map_toNat (h.folded_nodup hc) hfolded fun k => t.messageWeight k a x

end Progress

namespace WellBuilt

variable [IsStrictOrderedRing W] [CanonicallyOrderedAdd W]

/-- The marginal of one side is made from the marginals behind the other neighbors. -/
theorem sideMarginal_eq (h : t.WellBuilt axes) (hd : (axes.map Axis.name).Nodup)
    (hadj : t.graph.Adj a b) (hx : InRange axes x) :
    t.sideMarginal mode axes a b x = mode.collapse axes (t.scopeOf a \ t.scopeOf b)
      (fun y => t.weightOf a y * ∏ k ∈ (neighborSet t.size t.graph a).erase b,
        t.sideMarginal mode axes k a y) x := by
  rw [sideMarginal, h.forest.side_eq hadj, h.forest.cliqueMarginal_insert mode hd
    t.reads_weightOf h.scopeOf_subset (h.forest.lt_size hadj)
    (fun k hk => h.forest.mem_neighborSet.1 (Finset.mem_of_mem_erase hk))
    Finset.inter_subset_left hx, Finset.sdiff_inter_self_left]
  rfl

/-- The marginal of a tree is made from the marginals behind all neighbors. -/
theorem treeMarginal_eq (h : t.WellBuilt axes) (hd : (axes.map Axis.name).Nodup) (hi : i < t.size)
    (hx : InRange axes x) :
    t.treeMarginal mode axes i x = t.weightOf i x * ∏ k ∈ neighborSet t.size t.graph i,
      t.sideMarginal mode axes k i x := by
  rw [treeMarginal, h.forest.treeOf_eq hi, h.forest.cliqueMarginal_insert mode hd
    t.reads_weightOf h.scopeOf_subset hi (fun k hk => h.forest.mem_neighborSet.1 hk)
    subset_rfl hx, Finset.sdiff_self, Mode.collapse_empty]
  rfl

/-- Where the marginal of one side is zero, so is the product that it is collected from. -/
theorem weight_mul_prod_eq_zero (h : t.WellBuilt axes) (hd : (axes.map Axis.name).Nodup)
    (hadj : t.graph.Adj a b) (hx : InRange axes x) (hzero : t.sideMarginal mode axes a b x = 0) :
    t.weightOf a x * ∏ k ∈ (neighborSet t.size t.graph a).erase b,
      t.sideMarginal mode axes k a x = 0 := by
  rw [h.sideMarginal_eq hd hadj hx, Mode.collapse_eq_zero_iff] at hzero
  exact hzero x (self_mem_variants hd hx)

end WellBuilt

namespace Progress

variable [IsStrictOrderedRing W] [CanonicallyOrderedAdd W] {late : ℕ → ℕ → Prop}

/-- A clique together with the messages of some neighbors weighs as much as it does together with
what these messages should be, if none of them is late or the others are not zero. A message that is
not exact is zero, and then what it was made from is zero as well. -/
theorem weight_mul_prod_eq (h : Progress mode axes t late) (hd : (axes.map Axis.name).Nodup)
    (hx : InRange axes x) {near : Finset ℕ} (hnear : ∀ k ∈ near, t.graph.Adj a k ∧ t.Sent k a)
    (hfar : ∀ k ∈ near, late k a → ∀ d, t.graph.Adj a d → d ∉ near →
      t.sideMarginal mode axes d a x ≠ 0) :
    t.weightOf a x * ∏ k ∈ near, t.messageWeight k a x
      = t.weightOf a x * ∏ k ∈ near, t.sideMarginal mode axes k a x := by
  by_cases hspoiled : ∃ k ∈ near, late k a ∧ t.messageWeight a k x = 0
  · obtain ⟨k, hk, hlate, hzero⟩ := hspoiled
    obtain ⟨-, hback, hfirst⟩ := h.late_sent hlate
    have hside : t.sideMarginal mode axes a k x = 0 := by
      rw [← h.exact_of hback hx fun hl => hfirst hl.1]
      exact hzero
    have hleft : ∏ k ∈ near, t.messageWeight k a x = 0 :=
      Finset.prod_eq_zero hk (h.zero_of hlate hx hzero)
    rw [hleft, mul_zero]
    rcases mul_eq_zero.1 (h.built.weight_mul_prod_eq_zero hd (hnear k hk).1 hx hside) with hw | hw
    · rw [hw, zero_mul]
    · obtain ⟨d, hdmem, hdzero⟩ := Finset.prod_eq_zero_iff.1 hw
      have hadj := h.built.forest.mem_neighborSet.1 (Finset.mem_of_mem_erase hdmem)
      have hdnear : d ∈ near := by
        by_contra hout
        exact hfar k hk hlate d hadj hout hdzero
      rw [Finset.prod_eq_zero hdnear hdzero, mul_zero]
  · rw [Finset.prod_congr rfl fun k hk =>
      h.exact_of (hnear k hk).2 hx fun hl => hspoiled ⟨k, hk, hl⟩]

/-- The messages of all neighbors make up the marginal of the tree. -/
theorem weight_mul_prod_eq_treeMarginal (h : Progress mode axes t late)
    (hd : (axes.map Axis.name).Nodup) (hi : i < t.size) (hx : InRange axes x)
    (hsent : ∀ k, t.graph.Adj i k → t.Sent k i) :
    t.weightOf i x * ∏ k ∈ neighborSet t.size t.graph i, t.messageWeight k i x
      = t.treeMarginal mode axes i x := by
  have hmem : ∀ {k}, k ∈ neighborSet t.size t.graph i ↔ t.graph.Adj i k :=
    h.built.forest.mem_neighborSet
  rw [h.built.treeMarginal_eq hd hi hx]
  exact h.weight_mul_prod_eq hd hx (fun k hk => ⟨hmem.1 hk, hsent k (hmem.1 hk)⟩)
    fun k _ _ d hadj hout => absurd (hmem.2 hadj) hout

/-- The message of a sender that has not heard from the receiver. -/
theorem first_message (h : Progress mode axes t late) (hd : (axes.map Axis.name).Nodup)
    (hadj : t.graph.Adj a b) (hall : ∀ k, t.graph.Adj a k → k ≠ b → t.Sent k a)
    (hback : ¬ t.Sent b a) (hx : InRange axes x) :
    mode.collapse axes (t.scopeOf a \ t.scopeOf b) (fun y => t.weightOf a y
        * ∏ k ∈ (neighborSet t.size t.graph a).erase b, t.messageWeight k a y) x
      = t.sideMarginal mode axes a b x := by
  have hmem : ∀ {k}, k ∈ neighborSet t.size t.graph a ↔ t.graph.Adj a k :=
    h.built.forest.mem_neighborSet
  rw [h.built.sideMarginal_eq hd hadj hx]
  refine Mode.collapse_congr mode fun y hy => h.weight_mul_prod_eq hd
    (inRange_of_mem_variants hd hx hy) (fun k hk => ?_) fun k hk hlate => ?_
  · obtain ⟨hkb, hk⟩ := Finset.mem_erase.1 hk
    exact ⟨hmem.1 hk, hall k (hmem.1 hk) hkb⟩
  · -- A late message from `k` would answer one that the sender made from the receiver's.
    have hkb := Finset.ne_of_mem_erase hk
    exact absurd (h.sent_before (h.late_sent hlate).2.1 hadj fun he => hkb he.symm) hback

/-- The message of a sender that has heard from the receiver, where that message is not zero. -/
theorem second_message (h : Progress mode axes t late) (hd : (axes.map Axis.name).Nodup)
    (hadj : t.graph.Adj a b) (hall : ∀ k, t.graph.Adj a k → k ≠ b → t.Sent k a)
    (hback : t.Sent b a) (hx : InRange axes x) (hne : t.messageWeight b a x ≠ 0) :
    mode.collapse axes (t.scopeOf a \ t.scopeOf b) (fun y => t.weightOf a y
        * ∏ k ∈ neighborSet t.size t.graph a, t.messageWeight k a y) x * (t.messageWeight b a x)⁻¹
      = t.sideMarginal mode axes a b x := by
  have hmem : ∀ {k}, k ∈ neighborSet t.size t.graph a ↔ t.graph.Adj a k :=
    h.built.forest.mem_neighborSet
  have hreads := h.reads_messageWeight hback
  have hsplit : ∀ y, t.weightOf a y * ∏ k ∈ neighborSet t.size t.graph a, t.messageWeight k a y
      = t.messageWeight b a y * (t.weightOf a y
        * ∏ k ∈ (neighborSet t.size t.graph a).erase b, t.messageWeight k a y) := by
    intro y
    rw [← Finset.mul_prod_erase _ _ (hmem.2 hadj)]
    ring
  have hdisjoint : Disjoint (t.scopeOf b ∩ t.scopeOf a) (t.scopeOf a \ t.scopeOf b) :=
    Finset.disjoint_sdiff.mono_left Finset.inter_subset_left
  simp only [hsplit]
  rw [Mode.collapse_mul_left mode hd hx hreads hdisjoint, mul_comm, ← mul_assoc,
    inv_mul_cancel₀ hne, one_mul, h.built.sideMarginal_eq hd hadj hx]
  refine Mode.collapse_congr mode fun y hy => ?_
  have hy' := inRange_of_mem_variants hd hx hy
  have hsame : t.messageWeight b a y = t.messageWeight b a x := hreads y x fun n hn =>
    eq_of_mem_variants hd hx hy (Finset.disjoint_left.1 hdisjoint hn)
  have hnezero : t.messageWeight b a y ≠ 0 := hsame ▸ hne
  refine h.weight_mul_prod_eq hd hy' (fun k hk => ?_) fun k hk hlate d had hout => ?_
  · obtain ⟨hkb, hk⟩ := Finset.mem_erase.1 hk
    exact ⟨hmem.1 hk, hall k (hmem.1 hk) hkb⟩
  · have hdb : d = b := by
      by_contra hdb
      exact hout (Finset.mem_erase.2 ⟨hdb, hmem.2 had⟩)
    rw [hdb, ← h.exact_of hback hy' fun hl => hnezero (h.zero_of hl.1 hy' hl.2)]
    exact hnezero

section Sendable

variable (h : Progress mode axes t late) (hd : (axes.map Axis.name).Nodup)
  (hc : t.cliques[a]? = some c) (hadj : t.graph.Adj a b)
  (hall : ∀ k, t.graph.Adj a k → k ≠ b → t.Sent k a)
  (hfolded : ∀ n, n ∈ c.folded ↔ ∃ k : ℕ, n = k ∧ t.graph.Adj a k ∧ (k = b → t.Sent b a))
  {m : Factor W L} (hweight : ∀ x, InRange axes x → m.weightAt x
    = mode.collapse axes (t.scopeOf a \ t.scopeOf b) c.marginal.weightAt x
      * (t.messageWeight b a x)⁻¹)

include h hd hc hadj hall hfolded hweight

/-- The first message on an edge is made from the messages of all other neighbors. -/
theorem sendable_of_first (hback : ¬ t.Sent b a) : Sendable mode axes t a b m := by
  have hmem : ∀ {k}, k ∈ neighborSet t.size t.graph a ↔ t.graph.Adj a k := h.forest.mem_neighborSet
  have hnone : t.message b a = none := by simpa [Sent] using hback
  have hmarginal : ∀ y, InRange axes y → c.marginal.weightAt y = t.weightOf a y
      * ∏ k ∈ (neighborSet t.size t.graph a).erase b, t.messageWeight k a y := fun y hy =>
    h.marginal_eq_prod hc _ (fun n => by
      rw [hfolded]
      constructor
      · rintro ⟨k, hk, hak, hkb⟩
        exact ⟨k, Finset.mem_erase.2 ⟨fun he => hback (hkb he), hmem.2 hak⟩, hk⟩
      · rintro ⟨k, hak, hk⟩
        obtain ⟨hkb, hak⟩ := Finset.mem_erase.1 hak
        exact ⟨k, hk, hmem.1 hak, fun he => absurd he hkb⟩) hy
  refine ⟨fun {x} hx _ => ?_, fun _ hsent => absurd hsent hback⟩
  have hone : t.messageWeight b a x = 1 := by
    rw [messageWeight, hnone]
    rfl
  rw [hweight x hx, hone, inv_one, mul_one, ← h.first_message hd hadj hall hback hx]
  exact Mode.collapse_congr mode fun y hy => hmarginal y (inRange_of_mem_variants hd hx hy)

/-- The second message on an edge is made from the messages of all neighbors, and the receiver's own
message is divided out. -/
theorem sendable_of_answer (hback : t.Sent b a) : Sendable mode axes t a b m := by
  have hmem : ∀ {k}, k ∈ neighborSet t.size t.graph a ↔ t.graph.Adj a k := h.forest.mem_neighborSet
  have hmarginal : ∀ y, InRange axes y → c.marginal.weightAt y = t.weightOf a y
      * ∏ k ∈ neighborSet t.size t.graph a, t.messageWeight k a y := fun y hy =>
    h.marginal_eq_prod hc _ (fun n => by
      rw [hfolded]
      constructor
      · rintro ⟨k, hk, hak, -⟩
        exact ⟨k, hmem.2 hak, hk⟩
      · rintro ⟨k, hak, hk⟩
        exact ⟨k, hk, hmem.1 hak, fun _ => hback⟩) hy
  have hvalue : ∀ x, InRange axes x → m.weightAt x
      = mode.collapse axes (t.scopeOf a \ t.scopeOf b) (fun y => t.weightOf a y
        * ∏ k ∈ neighborSet t.size t.graph a, t.messageWeight k a y) x
        * (t.messageWeight b a x)⁻¹ := by
    intro x hx
    rw [hweight x hx]
    congr 1
    exact Mode.collapse_congr mode fun y hy => hmarginal y (inRange_of_mem_variants hd hx hy)
  refine ⟨fun {x} hx hne => ?_, fun {x} hx _ hzero => ?_⟩
  · rw [hvalue x hx]
    exact h.second_message hd hadj hall hback hx fun hzero => hne ⟨hback, hzero⟩
  · rw [hvalue x hx, hzero, inv_zero, mul_zero]

/-- A message that is made from what has arrived can be sent. -/
theorem sendable : Sendable mode axes t a b m := by
  by_cases hback : t.Sent b a
  · exact sendable_of_answer h hd hc hadj hall hfolded hweight hback
  · exact sendable_of_first h hd hc hadj hall hfolded hweight hback

end Sendable

/-- The running marginal of a clique that has folded in all its neighbors is exact. -/
theorem marginal_eq_treeMarginal (h : Progress mode axes t late)
    (hd : (axes.map Axis.name).Nodup) (hc : t.cliques[i]? = some c)
    (hfolded : ∀ k, t.graph.Adj i k → (k : Int) ∈ c.folded) (hx : InRange axes x) :
    c.marginal.weightAt x = t.treeMarginal mode axes i x := by
  have hi := lt_size_of_getElem? hc
  have hmem : ∀ {k}, k ∈ neighborSet t.size t.graph i ↔ t.graph.Adj i k :=
    h.built.forest.mem_neighborSet
  have hsent : ∀ k, t.graph.Adj i k → t.Sent k i := by
    intro k hik
    obtain ⟨j, hj, -, hji⟩ := h.folded_sent hc (hfolded k hik)
    rwa [show k = j by exact_mod_cast hj]
  rw [h.marginal_eq_prod hc (neighborSet t.size t.graph i) (fun n => ?_) hx,
    h.weight_mul_prod_eq_treeMarginal hd hi hx hsent]
  constructor
  · intro hn
    obtain ⟨k, hk, hik, -⟩ := h.folded_sent hc hn
    exact ⟨k, hmem.2 hik, hk⟩
  · rintro ⟨k, hk, rfl⟩
    exact hfolded k (hmem.1 hk)

end Progress

variable [ExactScale W] [ExactLog W L]

/-- Folding multiplies the messages into the marginal. -/
theorem Coherent.weightAt_product (h : Coherent axes t) (hd : (axes.map Axis.name).Nodup)
    (hc : t.cliques[a]? = some c) (hfold : t.Foldable a c ns) {m : Factor W L}
    (hm : c.marginal.productAll (t.arrived a ns) = .ok m) (hx : InRange axes x) :
    m.weightAt x = c.marginal.weightAt x * (ns.map fun n => t.messageWeight n.toNat a x).prod := by
  have hwithin := h.within_marginal hc
  rw [Factor.weightAt_productAll hd hwithin (fun _ hg => (h.fits_of_mem_arrived hc hfold hg).1)
    (fun _ hg => (h.fits_of_mem_arrived hc hfold hg).2) hm (hwithin.inRange hx),
    prod_weightAt_arrived (h.ready hfold)]

/-- A message weighs what is collected from the marginal, divided by the receiver's own message. -/
theorem Coherent.weightAt_messageFrom [CanonicallyOrderedAdd W] (h : Coherent axes t)
    (hd : (axes.map Axis.name).Nodup) (hpos : ∀ e ∈ axes, 0 < e.card)
    (hc : t.cliques[a]? = some c) (hadj : t.graph.Adj a b)
    {s : Separator} (hs : ∀ v, v ∈ s.shared ↔ v ∈ t.scopeOf a ∩ t.scopeOf b)
    (hfolded : (b : Int) ∈ c.folded ↔ t.Sent b a) {m : Factor W L}
    (hm : Passing.messageFrom mode t s a b c.marginal = .ok m) (hwithin : m.scope.Within axes)
    (hx : InRange axes x) :
    m.weightAt x = mode.collapse axes (t.scopeOf a \ t.scopeOf b) c.marginal.weightAt x
      * (t.messageWeight b a x)⁻¹ := by
  have hkept := Factor.weightAt_reduced mode hd (h.within_marginal hc)
    (fun v hv => (List.mem_filter.1 hv).1 :
      ∀ v ∈ c.marginal.names.filter fun v => !s.shared.contains v, v ∈ c.marginal.names) hx
  rw [h.toFinset_dropped hc hs] at hkept
  rw [h.messageFrom_eq hc hpos hadj hfolded] at hm
  rw [← hkept, messageWeight]
  cases hr : t.message b a with
  | none =>
    rw [hr] at hm
    cases hm
    simp
  | some r =>
    rw [hr] at hm
    rw [Factor.weightAt_product hm (hwithin.inRange hx),
      r.weightAt_invert ((h.message_scope hr).1.inRange hx)]
    rfl

section Pass

open PassingStep

variable {p : Passing W L} {late : ℕ → ℕ → Prop}

/-- Folding messages that have arrived and were not folded yet keeps the invariant. -/
theorem Progress.folding (h : Progress mode axes t late) (hd : (axes.map Axis.name).Nodup)
    (hc : t.cliques[a]? = some c) (hns : ns.Nodup) (hfold : t.Foldable a c ns) {m : Factor W L}
    (hm : c.marginal.productAll (t.arrived a ns) = .ok m)
    (hcoherent : Coherent axes (t.folding a m ns)) :
    Progress mode axes (t.folding a m ns) late where
  toTracked := h.toTracked.folding hcoherent
  toExactWeights := h.toExactWeights.folding hc hns hfold
    fun _ hx => h.toCoherent.weightAt_product hd hc hfold hm hx
  forest := (h.built.of_frame_eq (frame_folding t a m ns).symm).forest

theorem Progress.folding_completed (h : Progress mode axes p.tree late)
    (hd : (axes.map Axis.name).Nodup) {m : Factor W L} (hdone : Completed axes p i c m) :
    Progress mode axes (p.tree.folding i m c.unfolded) late :=
  h.folding hd hdone.clique hdone.nodup hdone.foldable hdone.product hdone.coherent

/-- A final marginal folds all outstanding messages, if they have arrived. -/
theorem Progress.computeMarginal_of_arrived (h : Progress mode axes p.tree late)
    (hd : (axes.map Axis.name).Nodup) (hi : i < p.tree.size)
    (hall : ∀ k, p.tree.graph.Adj i k → p.tree.Sent k i) :
    ∃ (t : CliqueTree W L) (c : Clique W L),
      Passing.computeMarginal (i : Int) p = .ok c.marginal { p with tree := t } ∧
      t.frame = p.tree.frame ∧ t.message = p.tree.message ∧
      t.cliques[i]? = some c ∧ (∀ n, n ∈ c.folded ↔ ∃ k : ℕ, n = k ∧ t.graph.Adj i k) ∧
      Progress mode axes t late := by
  obtain ⟨c, m, hdone⟩ := h.toCoherent.exists_completed hd hi hall
  refine ⟨p.tree.folding i m c.unfolded, _, hdone.run, frame_folding .., message_folding ..,
    hdone.clique_folding, fun n => ?_, h.folding_completed hd hdone⟩
  rw [graph_eq_of_frame_eq (frame_folding p.tree i m c.unfolded)]
  exact h.mem_folded_append_unfolded hdone.clique n

variable [IsStrictOrderedRing W] [CanonicallyOrderedAdd W]

section Prepared

variable {s : Separator} {m g : Factor W L} (h : Progress mode axes p.tree late)
  (hd : (axes.map Axis.name).Nodup) (hprep : Prepared mode axes p a b c s ns m g)

include h hd hprep

omit [IsStrictOrderedRing W] [CanonicallyOrderedAdd W] in
/-- A prepared call keeps the invariant up to the storing of its message. -/
theorem Progress.folding_prepared : Progress mode axes (p.tree.folding a m ns) late :=
  h.folding hd hprep.clique hprep.nodup hprep.foldable hprep.product hprep.coherent

/-- Storing a prepared message keeps the invariant. The message is late if the receiver's own
message has arrived. -/
theorem Progress.sending_prepared (hpos : ∀ e ∈ axes, 0 < e.card) (hadj : p.tree.graph.Adj a b)
    (hall : ∀ k, p.tree.graph.Adj a k → k ≠ b → p.tree.Sent k a) (hnew : ¬ p.tree.Sent a b) :
    Progress mode axes ((p.tree.folding a m ns).sending a b g)
      fun u w => late u w ∨ u = a ∧ w = b ∧ p.tree.Sent b a := by
  have hfolded := h.folding_prepared hd hprep
  have hframe := frame_folding p.tree a m ns
  have hscope := scopeOf_eq_of_frame_eq hframe
  have hgraph := graph_folding p.tree a m ns
  have hsent := sent_folding p.tree a m ns
  have hadj' : (p.tree.folding a m ns).graph.Adj a b := hgraph ▸ hadj
  have hback : (b : Int) ∈ c.folded ++ ns ↔ (p.tree.folding a m ns).Sent b a := by
    rw [hsent, ← hprep.mem_foldedAt hadj, foldedAt_eq hprep.sender]
  have hsendable : Sendable mode axes (p.tree.folding a m ns) a b g := by
    refine hfolded.sendable hd hprep.sender hadj' (by rw [hgraph, hsent]; exact hall)
      (by rw [hgraph, hsent]; exact hprep.mem_folded) fun x hx => ?_
    exact hfolded.toCoherent.weightAt_messageFrom hd hpos hprep.sender hadj'
      (by rw [hscope]; exact hprep.shared) hback hprep.message hprep.within hx
  exact {
    toTracked := h.toTracked.sending hadj hall hnew hprep
    toExactWeights := by
      rw [← hsent] at hnew
      have hweights := hfolded.toExactWeights.sending hfolded.toTracked hadj' hnew hsendable
      rwa [hsent] at hweights
    forest := (h.built.of_frame_eq hprep.frame_eq.symm).forest }

end Prepared

/-- What a call does once all that it needs has arrived: the outstanding messages are folded, and
then the message is sent, unless it was sent before. -/
theorem Progress.pass_of_arrived (h : Progress mode axes p.tree late)
    (hd : (axes.map Axis.name).Nodup) (hpos : ∀ e ∈ axes, 0 < e.card)
    (hadj : p.tree.graph.Adj a b)
    (hall : ∀ k, p.tree.graph.Adj a k → k ≠ b → p.tree.Sent k a) :
    ∃ t : CliqueTree W L, t.frame = p.tree.frame ∧ t.message = p.tree.message ∧
      ((b : Int) ∈ t.foldedAt a ↔ p.tree.Sent b a) ∧ Progress mode axes t late ∧
      (p.tree.Sent a b → Passing.pass mode (a : Int) (b : Int) p
        = .error (.messageExists a b) { announced p a b with tree := t }) ∧
      (¬ p.tree.Sent a b → ∃ m, Passing.pass mode (a : Int) (b : Int) p
          = .ok m { announced p a b with tree := t.sending a b m } ∧
        Progress mode axes (t.sending a b m)
          fun u w => late u w ∨ u = a ∧ w = b ∧ p.tree.Sent b a) := by
  obtain ⟨c, s, ns, m, g, hprep⟩ := h.toCoherent.exists_prepared hd hpos mode hadj hall
  exact ⟨p.tree.folding a m ns, frame_folding .., message_folding .., hprep.mem_foldedAt hadj,
    h.folding_prepared hd hprep, hprep.pass_of_sent, fun hnew =>
      ⟨g, hprep.pass_of_new hnew, h.sending_prepared hd hprep hpos hadj hall hnew⟩⟩

end Pass

end CliqueTree

end ExactInference
