import ExactInference.Proofs.TwoSweeps

/-!
# Who gathers

However cliques are visited, at most one clique of a tree gathers: when a clique has received
everything before it sent anything, then along every path away from it all others have sent. If the
edges make no cycle and all messages of a tree are sent in the end, then one clique gathers.
Otherwise every clique would have sent its first message to a neighbor that had not sent to it
before; following these messages never leads back along an edge, which is impossible in a forest.
-/

namespace ExactInference

section Gathering

variable {G : SimpleGraph ℕ} {S : ℕ → ℕ → Prop} {visits : List ℕ} {a b i r s : ℕ}

/-- Nothing is sent at first. -/
def NoneSent (_ _ : ℕ) : Prop := False

/-- Messages are sent along edges. -/
theorem adj_of_spreadAll (h : spreadAll G NoneSent visits a b) : G.Adj a b := by
  induction visits using List.reverseRecOn with
  | nil => exact h.elim
  | append_singleton visits i ih =>
    rw [spreadAll_append] at h
    rcases h with h | ⟨rfl, hadj, -⟩
    · exact ih h
    · exact hadj

/-- A sender has received from all its other neighbors. -/
theorem received_of_sent {k : ℕ} (h : spreadAll G NoneSent visits a b) (hak : G.Adj a k)
    (hkb : k ≠ b) : spreadAll G NoneSent visits k a :=
  received_of_spreadAll (fun _ _ _ h => h.elim) visits a b k h hak hkb

/-- Some clique gathers on the last visit or on an earlier one. -/
theorem gathersOnVisit_concat : GathersOnVisit G S (visits ++ [i]) r ↔
    GathersOnVisit G S visits r ∨ r = i ∧ Gathers G (spreadAll G S visits) i := by
  constructor
  · rintro ⟨front, back, hsplit, hgathers⟩
    rcases List.eq_nil_or_concat' back with rfl | ⟨back, j, rfl⟩
    · obtain ⟨rfl, he⟩ := List.append_inj' hsplit rfl
      cases List.singleton_inj.1 he
      exact Or.inr ⟨rfl, hgathers⟩
    · rw [← List.cons_append, ← List.append_assoc] at hsplit
      exact Or.inl ⟨front, back, (List.append_inj' hsplit rfl).1, hgathers⟩
  · rintro (⟨front, back, rfl, hgathers⟩ | ⟨rfl, hgathers⟩)
    · exact ⟨front, back ++ [i], by simp, hgathers⟩
    · exact ⟨visits, [], rfl, hgathers⟩

/-- If a message was sent against the start of a path, then the end of the path has sent. -/
theorem exists_sent_of_path {u v w : ℕ} (p : G.Walk u v) (hp : p.IsPath) (hw : w ∉ p.support)
    (hsent : spreadAll G NoneSent visits u w) : ∃ b, spreadAll G NoneSent visits v b := by
  induction p generalizing w with
  | nil => exact ⟨w, hsent⟩
  | cons hadj p ih =>
    rw [SimpleGraph.Walk.cons_isPath_iff] at hp
    refine ih hp.1 hp.2 (received_of_sent hsent hadj ?_)
    rintro rfl
    exact hw (List.mem_cons_of_mem _ p.start_mem_support)

/-- When a clique gathers, all others of its tree have sent. -/
theorem exists_sent_of_gathers (h : Gathers G (spreadAll G NoneSent visits) r)
    (hreach : G.Reachable r s) (hne : r ≠ s) : ∃ b, spreadAll G NoneSent visits s b := by
  obtain ⟨p, hp⟩ := hreach.exists_isPath
  cases p with
  | nil => exact absurd rfl hne
  | cons hadj p =>
    rw [SimpleGraph.Walk.cons_isPath_iff] at hp
    exact exists_sent_of_path p hp.1 hp.2 (h.2 _ hadj)

/-- No two cliques of a tree gather. -/
theorem eq_of_gathersOnVisit (hr : GathersOnVisit G NoneSent visits r)
    (hs : GathersOnVisit G NoneSent visits s) (hreach : G.Reachable r s) : r = s := by
  by_contra hne
  obtain ⟨front, back, hsplit, hgathers⟩ := hr
  obtain ⟨front', back', hsplit', hgathers'⟩ := hs
  have hprefix : front <+: visits := ⟨_, hsplit.symm⟩
  have hprefix' : front' <+: visits := ⟨_, hsplit'.symm⟩
  -- Whoever gathers later had sent before.
  rcases List.prefix_or_prefix_of_prefix hprefix hprefix' with ⟨rest, rfl⟩ | ⟨rest, rfl⟩
  · obtain ⟨b, hb⟩ := exists_sent_of_gathers hgathers hreach hne
    exact hgathers'.1 b (spreadAll_of_append hb rest)
  · obtain ⟨b, hb⟩ := exists_sent_of_gathers hgathers' hreach.symm fun he => hne he.symm
    exact hgathers.1 b (spreadAll_of_append hb rest)

/-- The first message of a clique goes to a neighbor that has not sent to it. -/
def SendsFirst (G : SimpleGraph ℕ) (visits : List ℕ) (a b : ℕ) : Prop :=
  ∃ front, front ++ [a] <+: visits ∧ G.Adj a b ∧ spreadAll G NoneSent (front ++ [a]) a b ∧
    ¬ spreadAll G NoneSent front b a

/-- A clique that has sent has gathered, or has sent its first message too early for that. -/
theorem gathers_or_sendsFirst (h : spreadAll G NoneSent visits a b) :
    GathersOnVisit G NoneSent visits a ∨ ∃ k, SendsFirst G visits a k := by
  induction visits using List.reverseRecOn generalizing b with
  | nil => exact h.elim
  | append_singleton visits i ih =>
    by_cases hbefore : ∃ k, spreadAll G NoneSent visits a k
    · obtain ⟨k, hk⟩ := hbefore
      rcases ih hk with hgathers | ⟨k, front, hprefix, hfirst⟩
      · exact Or.inl (gathersOnVisit_concat.2 (Or.inl hgathers))
      · exact Or.inr ⟨k, front, hprefix.trans (List.prefix_append _ _), hfirst⟩
    · have hnew := h
      rw [spreadAll_append] at hnew
      obtain ⟨rfl, hadj, hall⟩ := hnew.resolve_left fun hold => hbefore ⟨b, hold⟩
      by_cases hback : spreadAll G NoneSent visits b a
      · refine Or.inl (gathersOnVisit_concat.2 (Or.inr ⟨rfl, fun k hk => hbefore ⟨k, hk⟩,
          fun k hak => ?_⟩))
        by_cases hkb : k = b
        · exact hkb ▸ hback
        · exact hall k hak hkb
      · exact Or.inr ⟨b, visits, List.prefix_rfl, hadj, h, hback⟩

/-- Two neighbors do not both send their first message to each other. -/
theorem SendsFirst.asymm (h : SendsFirst G visits a b) : ¬ SendsFirst G visits b a := by
  rintro ⟨front', hprefix', -, hsent', hnot'⟩
  obtain ⟨front, hprefix, hadj, hsent, hnot⟩ := h
  rcases List.prefix_or_prefix_of_prefix hprefix hprefix' with hle | hle
  · rcases List.prefix_concat_iff.1 hle with he | ⟨rest, rfl⟩
    · exact hadj.ne (List.append_inj_right' he rfl |> List.singleton_inj.1)
    · exact hnot' (spreadAll_of_append hsent rest)
  · rcases List.prefix_concat_iff.1 hle with he | ⟨rest, rfl⟩
    · exact hadj.ne' (List.append_inj_right' he rfl |> List.singleton_inj.1)
    · exact hnot (spreadAll_of_append hsent' rest)

/-- If all messages of a visited tree are sent, then one of its cliques gathers. -/
theorem exists_gathersOnVisit {R : Finset ℕ} (hG : G.IsAcyclic)
    (hin : ∀ {a b}, G.Adj a b → a ∈ R) (hvisit : ∃ j ∈ visits, G.Reachable i j)
    (hall : ∀ a b, G.Reachable i a → G.Adj a b → spreadAll G NoneSent visits a b) :
    ∃ r, G.Reachable i r ∧ GathersOnVisit G NoneSent visits r := by
  by_contra hnone
  push Not at hnone
  have hfirst : ∀ {a b}, G.Reachable i a → G.Adj a b → ∃ k, SendsFirst G visits a k :=
    fun hia hab => (gathers_or_sendsFirst (hall _ _ hia hab)).resolve_left (hnone _ hia)
  by_cases hsome : ∃ k, G.Adj i k
  · obtain ⟨k, hik⟩ := hsome
    obtain ⟨b, hib⟩ := hfirst (SimpleGraph.Reachable.refl i) hik
    have hadj : G.Adj i b := hib.choose_spec.2.1
    -- No first message goes toward what lies behind an edge.
    refine OnSide.edge_induct (P := fun a b => G.Reachable i a → ¬ SendsFirst G visits b a) hG hin
      (fun {a b} hab ih hia hba => ?_) hadj.symm hadj.reachable hib
    obtain ⟨k, hak⟩ := hfirst hia hab
    have hadj : G.Adj a k := hak.choose_spec.2.1
    by_cases hkb : k = b
    · exact hba.asymm (hkb ▸ hak)
    · exact ih hadj hkb (hia.trans hadj.reachable) hak
  · push Not at hsome
    obtain ⟨j, hj, hij⟩ := hvisit
    have hji : j = i := ((OnSide.reachable_iff G i j).1 hij).resolve_right fun ⟨c, hc, _⟩ =>
      hsome c hc
    subst hji
    obtain ⟨front, back, rfl⟩ := List.append_of_mem hj
    exact hnone j hij ⟨front, back, rfl, fun b hb => hsome b (adj_of_spreadAll hb),
      fun k hk => absurd hk (hsome k)⟩

end Gathering

end ExactInference
