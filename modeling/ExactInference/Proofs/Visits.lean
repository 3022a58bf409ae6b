import ExactInference.Proofs.OrderlyTrees

/-!
# Visits

A visit sends what the clique can compute and has not sent. On a tree under way this is what is due:
what was not sent, while all other neighbors have sent. A visit is described here for any property
that sending a due message keeps and for any faults that this may end in, so that every invariant of
message passing is carried through a visit in one way.
-/

namespace ExactInference

section Computable

variable {μ : Type}

theorem computableOutbound_sublist (l : List (Separator × Option μ)) :
    (computableOutbound l).Sublist (l.map Prod.fst) := by
  unfold computableOutbound
  split
  · exact List.Sublist.refl _
  · next e he =>
    have hmem : e ∈ l := (List.mem_filter.1 (he ▸ List.mem_singleton_self e)).1
    exact List.singleton_sublist.2 (List.mem_map_of_mem hmem)
  · exact List.nil_sublist _

/-- A clique can send along an edge if the messages of all other edges have arrived. -/
theorem mem_computableOutbound {l : List (Separator × Option μ)} (hl : (l.map Prod.fst).Nodup)
    {s : Separator} : s ∈ computableOutbound l ↔
      s ∈ l.map Prod.fst ∧ ∀ e ∈ l, e.2 = none → e.1 = s := by
  have hmissing : ∀ e, e ∈ l.filter (fun e => e.2.isNone) ↔ e ∈ l ∧ e.2 = none := fun e => by
    rw [List.mem_filter, Option.isNone_iff_eq_none]
  unfold computableOutbound
  split
  · next hnil =>
    rw [hnil] at hmissing
    simp only [List.not_mem_nil, false_iff, not_and] at hmissing
    exact ⟨fun h => ⟨h, fun e he hnone => absurd hnone (hmissing e he)⟩, fun h => h.1⟩
  · next e hone =>
    rw [hone] at hmissing
    simp only [List.mem_singleton] at hmissing
    obtain ⟨he, hnone⟩ := (hmissing e).1 rfl
    rw [List.mem_singleton]
    constructor
    · rintro rfl
      exact ⟨List.mem_map_of_mem he, fun d hd hdn => by rw [(hmissing d).2 ⟨hd, hdn⟩]⟩
    · exact fun h => (h.2 e he hnone).symm
  · next hnot hone =>
    simp only [List.not_mem_nil, false_iff, not_and]
    intro _ hall
    match hm : l.filter fun e => e.2.isNone with
    | [] => exact hnot hm
    | [e] => exact hone e hm
    | d :: e :: rest =>
      have hd := (hmissing d).1 (by simp [hm])
      have he := (hmissing e).1 (by simp [hm])
      have hsub : ((d :: e :: rest).map Prod.fst).Nodup := by
        rw [← hm]
        exact (List.filter_sublist.map Prod.fst).nodup hl
      rw [List.map_cons, List.map_cons, hall d hd.1 hd.2, hall e he.1 he.2] at hsub
      simp at hsub

/-- What a visit sends, of what a clique has received and the receivers of what it has sent. -/
def unsent (l : List (Separator × Option μ)) (receivers : List Int) : List Separator :=
  (arrange (fun s t => decide (s.stop ≤ t.stop)) (computableOutbound l)).filter
    fun s => !receivers.contains s.stop

theorem mem_unsent {l : List (Separator × Option μ)} (hl : (l.map Prod.fst).Nodup)
    {receivers : List Int} {s : Separator} : s ∈ unsent l receivers ↔
      (s ∈ l.map Prod.fst ∧ ∀ e ∈ l, e.2 = none → e.1 = s) ∧ s.stop ∉ receivers := by
  rw [unsent, List.mem_filter, (arrange_perm _ _).mem_iff, mem_computableOutbound hl]
  simp

theorem nodup_unsent {l : List (Separator × Option μ)}
    (hl : ((l.map Prod.fst).map Separator.stop).Nodup) (receivers : List Int) :
    ((unsent l receivers).map Separator.stop).Nodup := by
  have hsub : ((computableOutbound l).map Separator.stop).Nodup :=
    ((computableOutbound_sublist l).map Separator.stop).nodup hl
  exact (List.filter_sublist.map Separator.stop).nodup
    (((arrange_perm _ _).map Separator.stop).nodup_iff.2 hsub)

end Computable

namespace CliqueTree

variable {W L : Type} {t : CliqueTree W L} {i : ℕ} {c : Clique W L} {axes : List Axis}

/-- A list of what a clique has received: one entry for each neighbor, with the message that has
arrived from it, if there is one. -/
structure Inbound (t : CliqueTree W L) (i : ℕ) (es : List (Separator × Option (Factor W L))) :
    Prop where
  /-- An entry belongs to a neighbor. -/
  entry : ∀ {e}, e ∈ es → e.1.start = i ∧ ∃ k : ℕ, e.1.stop = k ∧ t.Borders i k ∧
    (e.2 = none ↔ ¬ t.Sent k i)
  /-- Every neighbor has an entry. -/
  exists_entry : ∀ {k : ℕ}, t.Borders i k → ∃ e ∈ es, e.1.stop = k
  /-- No neighbor has two. -/
  nodup : ((es.map Prod.fst).map Separator.stop).Nodup

/-- The entry of a neighbor. -/
def inboundEntry (t : CliqueTree W L) (i : ℕ) (c : Clique W L) (n : Int) :
    Separator × Option (Factor W L) :=
  ((c.separators.get? n).getD ⟨i, n, []⟩, t.message n.toNat i)

theorem Meshed.inboundEntry_spec (h : t.Meshed axes) (hc : t.cliques[i]? = some c) {n : Int}
    (hn : n ∈ c.neighbors) :
    c.separators.get? n = some (t.inboundEntry i c n).1 ∧ (t.inboundEntry i c n).1.start = i ∧
      (t.inboundEntry i c n).1.stop = n ∧
      ∃ k : ℕ, n = k ∧ t.Borders i k ∧ (t.inboundEntry i c n).2 = t.message k i := by
  obtain ⟨k, rfl, hborder⟩ := (h.mem_neighbors hc).1 hn
  obtain ⟨s, hs⟩ := OrderedMap.exists_get?_of_mem_keys (hborder.mem_keys hc)
  obtain ⟨-, -, -, -, -, hstart, hstop, -⟩ := h.separators hc hs
  have he : (t.inboundEntry i c (k : Int)).1 = s := by simp [inboundEntry, hs]
  rw [he]
  exact ⟨hs, hstart, hstop, k, rfl, hborder, by simp [inboundEntry]⟩

/-- No two entries belong to one edge. -/
theorem Meshed.pairwise_inboundEntry (h : t.Meshed axes) (hc : t.cliques[i]? = some c) :
    (c.neighbors.map (t.inboundEntry i c)).Pairwise fun d e => (d.1 == e.1) = false := by
  rw [List.pairwise_map]
  refine List.Pairwise.imp_of_mem ?_ (h.neighbors_nodup hc)
  intro m n hm hn hne
  obtain ⟨-, hstart, hstop, -⟩ := h.inboundEntry_spec hc hm
  obtain ⟨-, hstart', hstop', -⟩ := h.inboundEntry_spec hc hn
  change Separator.sameEdge _ _ = false
  simp only [Separator.sameEdge, hstart, hstart', hstop, hstop', true_and]
  simp only [decide_eq_false_iff_not, not_or, not_and]
  exact ⟨hne, fun hin hmi => hne (hmi.trans hin)⟩

theorem Meshed.inbound_eq_ok (h : t.Meshed axes) (hc : t.cliques[i]? = some c) :
    t.inbound (i : Int) = .ok ⟨c.neighbors.map (t.inboundEntry i c)⟩ := by
  have hread : (c.neighbors.mapM fun n => do
      let m ← t.message? n i
      .ok ((c.separators.get? n).map fun s => (s, m)) : Except Fault _)
      = .ok (c.neighbors.map fun n => some (t.inboundEntry i c n)) := by
    refine mapM_eq_ok fun n hn => ?_
    obtain ⟨hs, -, -, k, rfl, hborder, hm⟩ := h.inboundEntry_spec hc hn
    rw [message?_eq_ok (h.symm hborder).lt_size, hs]
    simp only [bind, Except.bind, Option.map_some, ← hm]
  have hsome : (c.neighbors.map fun n => some (t.inboundEntry i c n)).filterMap id
      = c.neighbors.map (t.inboundEntry i c) := by
    rw [List.filterMap_map, ← List.filterMap_eq_map]
    rfl
  rw [inbound, cliqueAt_eq_ok hc]
  simp only [bind, Except.bind] at hread ⊢
  rw [hread]
  simp only [hsome]
  exact congrArg (fun es => Except.ok (OrderedMap.mk es))
    (OrderedMap.entries_ofList (h.pairwise_inboundEntry hc))

/-- What a clique has received is listed by its separators. -/
theorem Meshed.exists_inbound (h : t.Meshed axes) (hi : i < t.size) :
    ∃ es, t.inbound (i : Int) = .ok ⟨es⟩ ∧ Inbound t i es := by
  obtain ⟨c, hc⟩ := exists_clique hi
  have hstops : ((c.neighbors.map (t.inboundEntry i c)).map Prod.fst).map Separator.stop
      = c.neighbors := by
    rw [List.map_map, List.map_map]
    conv_rhs => rw [← List.map_id c.neighbors]
    exact List.map_congr_left fun n hn => (h.inboundEntry_spec hc hn).2.2.1
  refine ⟨_, h.inbound_eq_ok hc, ?_⟩
  constructor
  case entry =>
    intro e he
    obtain ⟨n, hn, rfl⟩ := List.mem_map.1 he
    obtain ⟨-, hstart, hstop, k, rfl, hborder, hm⟩ := h.inboundEntry_spec hc hn
    refine ⟨hstart, k, hstop, hborder, ?_⟩
    rw [hm, Sent]
    cases t.message k i <;> simp
  case exists_entry =>
    intro k hk
    have hn : (k : Int) ∈ c.neighbors := (h.mem_neighbors hc).2 ⟨k, rfl, hk⟩
    exact ⟨_, List.mem_map_of_mem hn, (h.inboundEntry_spec hc hn).2.2.1⟩
  case nodup =>
    rw [hstops]
    exact h.neighbors_nodup hc

namespace Inbound

variable {es : List (Separator × Option (Factor W L))} {ns : List Int}

/-- An entry has no message if its neighbor has not sent one. -/
theorem eq_none_iff (h : Inbound t i es) {e} (he : e ∈ es) {k : ℕ} (hk : e.1.stop = k) :
    e.2 = none ↔ ¬ t.Sent k i := by
  obtain ⟨-, j, hj, -, hm⟩ := h.entry he
  have hjk : j = k := by omega
  exact hjk ▸ hm

/-- Everything has arrived if every entry has a message. -/
theorem all_isSome_iff (h : Inbound t i es) : (OrderedMap.mk es).values.all Option.isSome = true
    ↔ ∀ k, t.Borders i k → t.Sent k i := by
  simp only [OrderedMap.values, List.all_eq_true, List.mem_map, forall_exists_index, and_imp,
    forall_apply_eq_imp_iff₂]
  constructor
  · intro hsome k hik
    obtain ⟨e, he, hek⟩ := h.exists_entry hik
    by_contra hmissing
    have hcontra := hsome e he
    rw [(h.eq_none_iff he hek).2 hmissing] at hcontra
    cases hcontra
  · intro hreceived e he
    obtain ⟨-, k, -, hik, hm⟩ := h.entry he
    rw [Option.isSome_iff_ne_none]
    exact fun hnone => hm.1 hnone (hreceived k hik)

/-- What a visit sends is due. -/
theorem due_of_mem (h : Inbound t i es) (hns : ∀ k : ℕ, (k : Int) ∈ ns ↔ t.Sent i k)
    {s : Separator} (hs : s ∈ unsent es ns) : s.start = i ∧ ∃ b : ℕ, s.stop = b ∧ t.Due i b := by
  obtain ⟨⟨hin, hall⟩, hout⟩ := (mem_unsent (List.Nodup.of_map _ h.nodup)).1 hs
  obtain ⟨e, he, rfl⟩ := List.mem_map.1 hin
  obtain ⟨hstart, b, hb, hib, -⟩ := h.entry he
  refine ⟨hstart, b, hb, hib, fun hsent => hout (hb ▸ (hns b).2 hsent), fun k hik hkb => ?_⟩
  obtain ⟨d, hd, hdk⟩ := h.exists_entry hik
  by_contra hmissing
  have hde := hall d hd ((h.eq_none_iff hd hdk).2 hmissing)
  rw [hde, hb] at hdk
  exact hkb (by exact_mod_cast hdk.symm)

/-- A visit sends what is due. -/
theorem stop_mem_iff (h : Inbound t i es) (hns : ∀ k : ℕ, (k : Int) ∈ ns ↔ t.Sent i k) (b : ℕ) :
    (b : Int) ∈ (unsent es ns).map Separator.stop ↔ t.Due i b := by
  rw [List.mem_map]
  constructor
  · rintro ⟨s, hs, hsb⟩
    obtain ⟨-, k, hk, hdue⟩ := h.due_of_mem hns hs
    have hkb : k = b := by omega
    exact hkb ▸ hdue
  · rintro ⟨hib, hnew, hall⟩
    obtain ⟨e, he, heb⟩ := h.exists_entry hib
    refine ⟨e.1, (mem_unsent (List.Nodup.of_map _ h.nodup)).2
      ⟨⟨List.mem_map_of_mem he, fun d hd hnone => ?_⟩, ?_⟩, heb⟩
    · obtain ⟨-, k, hk, hik, hm⟩ := h.entry hd
      have hkb : k = b := by
        by_contra hkb
        exact hm.1 hnone (hall k hik hkb)
      refine List.inj_on_of_nodup_map h.nodup (List.mem_map_of_mem hd) (List.mem_map_of_mem he) ?_
      rw [hk, heb, hkb]
    · rw [heb]
      exact fun hin => hnew ((hns b).1 hin)

end Inbound

/-- A clique that has sent nothing and has received everything. -/
def Gathering (t : CliqueTree W L) (i : ℕ) : Prop :=
  (∀ b, ¬ t.Sent i b) ∧ ∀ k, t.Borders i k → t.Sent k i

variable {mode : Mode} {p : Passing W L}

open PassingStep

/-- The receivers of a clique's messages. -/
theorem Orderly.sentBy_eq_ok (h : Orderly axes t) (hi : i < t.size) :
    ∃ ns, t.sentBy (i : Int) = .ok ns ∧ (∀ n ∈ ns, ∃ k : ℕ, n = k) ∧
      ∀ k : ℕ, (k : Int) ∈ ns ↔ t.Sent i k := by
  obtain ⟨c, hc⟩ := exists_clique hi
  refine ⟨c.messages.keys, ?_, fun n hn => h.receivers hc hn, fun k => ?_⟩
  · rw [sentBy, cliqueAt_eq_ok hc]
    rfl
  · rw [Sent, message_eq hc, ← OrderedMap.contains_iff_mem_keys, OrderedMap.contains]

section Visit

variable [WeightScale W] [WeightScale L] [LogConversion W L] {fault : Fault → Prop}
  {holds : Passing W L → Prop}
  (hpass : ∀ {p : Passing W L} {b : ℕ}, holds p → p.tree.Due i b →
    Ends fault (fun _ q => q.tree.frame = p.tree.frame ∧
      (∀ u w, q.tree.Sent u w ↔ p.tree.Sent u w ∨ u = i ∧ w = b) ∧ holds q)
      (Passing.pass mode (i : Int) (b : Int) p))
include hpass

/-- Messages that are due are sent one after the other. -/
theorem ends_forM_pass (h : holds p) {ss : List Separator}
    (hss : ∀ s ∈ ss, s.start = i ∧ ∃ b : ℕ, s.stop = b ∧ p.tree.Due i b)
    (hstops : (ss.map Separator.stop).Nodup) :
    Ends fault (fun _ q => q.tree.frame = p.tree.frame ∧
      (∀ a b, q.tree.Sent a b ↔ p.tree.Sent a b ∨ a = i ∧ (b : Int) ∈ ss.map Separator.stop) ∧
      holds q) ((ss.forM fun s => do let _ ← Passing.pass mode s.start s.stop) p) := by
  induction ss generalizing p with
  | nil => exact ⟨rfl, fun a b => by simp, h⟩
  | cons s ss ih =>
    obtain ⟨hstart, b, hstop, hdue⟩ := hss s List.mem_cons_self
    obtain ⟨hfresh, hstops⟩ := List.nodup_cons.1 hstops
    have hhead : Ends fault (fun (_ : Unit) q => q.tree.frame = p.tree.frame ∧
        (∀ u w, q.tree.Sent u w ↔ p.tree.Sent u w ∨ u = i ∧ w = b) ∧ holds q)
        ((do let _ ← Passing.pass mode s.start s.stop : PassingStep W L Unit) p) := by
      rw [hstart, hstop]
      exact (hpass h hdue).bind fun _ q hq => hq
    refine hhead.bind (f := fun _ => ss.forM _) fun _ u hu => ?_
    obtain ⟨hframe, hsent, hholds⟩ := hu
    have hborders := borders_eq_of_frame_eq hframe
    -- What is due stays due while other messages are sent.
    have hrest := ih hholds (fun s' hs' => by
      obtain ⟨hstart', b', hstop', hborder', hnew', hall'⟩ := hss s' (List.mem_cons_of_mem s hs')
      refine ⟨hstart', b', hstop', hborders ▸ hborder', fun hs => ?_, fun k hik hkb => ?_⟩
      · rcases (hsent i b').1 hs with hs | ⟨-, rfl⟩
        · exact hnew' hs
        · exact hfresh (hstop.trans hstop'.symm ▸ List.mem_map_of_mem hs')
      · exact (hsent k i).2 (Or.inl (hall' k (hborders ▸ hik) hkb))) hstops
    refine hrest.imp fun _ q hq => ⟨hq.1.trans hframe, fun u w => ?_, hq.2.2⟩
    rw [hq.2.1, hsent, List.map_cons, List.mem_cons, hstop, Int.natCast_inj]
    tauto

/-- A visit sends what is due, and counts the clique as a root if everything had arrived before it
sent anything. -/
theorem ends_visit (h : holds p) (horderly : Orderly axes p.tree) (hi : i < p.tree.size)
    (roots : List Int) :
    Ends fault (fun roots' q => q.tree.frame = p.tree.frame ∧
      (∀ a b, q.tree.Sent a b ↔ p.tree.Sent a b ∨ a = i ∧ p.tree.Due i b) ∧ holds q ∧
      (p.tree.Gathering i → roots' = addOnce roots i) ∧ (¬ p.tree.Gathering i → roots' = roots))
      (Passing.visit mode roots (i : Int) p) := by
  obtain ⟨es, hes, hin⟩ := horderly.meshed.exists_inbound hi
  obtain ⟨ns, hns, hnat, hmem⟩ := horderly.sentBy_eq_ok hi
  have hnone : ns.isEmpty = true ↔ ∀ b, ¬ p.tree.Sent i b := by
    rw [List.isEmpty_iff]
    constructor
    · exact fun he b hb => by simpa [he] using (hmem b).2 hb
    · refine fun hno => List.eq_nil_iff_forall_not_mem.2 fun n hn => ?_
      obtain ⟨k, rfl⟩ := hnat n hn
      exact hno k ((hmem k).1 hn)
  have hroot : (ns.isEmpty && (OrderedMap.mk es).values.all Option.isSome) = true
      ↔ p.tree.Gathering i := by
    rw [Bool.and_eq_true, hnone, hin.all_isSome_iff, Gathering]
  have hsends := ends_forM_pass hpass h (fun s hs => hin.due_of_mem hmem hs)
    (nodup_unsent hin.nodup ns)
  rw [Passing.visit, bind_of_ok (inspect_of_ok hes), bind_of_ok (inspect_of_ok hns)]
  refine hsends.bind fun _ q hq => ?_
  obtain ⟨hframe, hsent, hholds⟩ := hq
  simp only [hin.stop_mem_iff hmem] at hsent
  by_cases hgathers : p.tree.Gathering i
  · rw [if_pos (hroot.2 hgathers)]
    exact ⟨hframe, hsent, hholds, fun _ => rfl, fun hno => absurd hgathers hno⟩
  · rw [if_neg fun hc => hgathers (hroot.1 hc)]
    exact ⟨hframe, hsent, hholds, fun hyes => absurd hyes hgathers, fun _ => rfl⟩

end Visit

end CliqueTree

end ExactInference
