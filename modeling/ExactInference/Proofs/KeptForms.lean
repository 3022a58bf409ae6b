import ExactInference.Proofs.Answers
import ExactInference.Proofs.FillIn

/-!
# Forms of stored weights

A product takes the form of its left operand. Messages are only ever multiplied into the marginal
of a clique, so every marginal keeps the form of the minimal factor that it grew from, and so does a
scaled one. If all factors of a graph store logarithms, then its minimal factors do, except for the
uniform factor of a variable that no factor mentions, which stores weights. Only such a factor makes
an engine write an exponential. None of this depends on the weights.
-/

namespace ExactInference

variable {W L : Type}

/-- How a factor is stored: its form and its axes. -/
def Factor.layout (f : Factor W L) : Form × Scope := (f.form, f.scope)

/-- Whether a fault can be explained by the layouts of some factors: exponentials are only written
where weights are stored. -/
def Fault.FitsLayouts (layouts : List (Form × Scope)) (e : Fault) : Prop :=
  e = .exponentialTooLarge → ∃ l ∈ layouts, l.1 = .plain

theorem Fault.fitsLayouts_of_ne {layouts : List (Form × Scope)} {e : Fault}
    (h : e ≠ .exponentialTooLarge) : e.FitsLayouts layouts := fun he => absurd he h

namespace Factor

variable [WeightScale W] [WeightScale L] [LogConversion W L] {f g h : Factor W L}

/-- Scaling keeps the layout, and only writes an exponential for stored weights. -/
theorem yields_scaleLog (f : Factor W L) (c : L) :
    Yields (fun _ => f.form = .plain) (fun h => h.layout = f.layout) (f.scaleLog c) := by
  cases f with
  | plain t =>
    unfold scaleLog LogConversion.tryExp
    cases LogConversion.exp? (W := W) c <;> rfl
  | log t => rfl

/-- No exponential is written for a total. -/
theorem yields_totalLogWeight (f : Factor W L) :
    Yields (· ≠ .exponentialTooLarge) (fun _ : L => True) f.totalLogWeight := by
  cases f with
  | plain t => trivial
  | log t =>
    refine Yields.bind (?_ : Yields _ (fun _ => True) _) fun _ _ => trivial
    unfold checkSum
    split
    · exact nofun
    · trivial

end Factor

/-- An element of a list is one of it, or the index is beyond the list. -/
theorem yields_elementAt {α : Type} (xs : List α) (n : Int) :
    Yields (· ≠ .exponentialTooLarge) (· ∈ xs) (elementAt xs n) := by
  refine Yields.bind (?_ : Yields _ (fun _ => True) _) fun place _ => ?_
  · unfold resolveIndex
    split
    · trivial
    · split <;> exact nofun
  · cases hx : xs[place]? with
    | none => exact nofun
    | some x => exact List.mem_of_getElem? hx

namespace Passing

variable [WeightScale W] [WeightScale L] [LogConversion W L] {layouts : List (Form × Scope)}
  {ms : List (Factor W L)}

/-- Scaling one marginal keeps the layouts of all. -/
theorem yields_scaleAt (offset : L) (h : ∀ m ∈ ms, m.layout ∈ layouts) (i : ℕ) :
    Yields (Fault.FitsLayouts layouts) (∀ m ∈ ·, m.layout ∈ layouts) (scaleAt offset ms i) := by
  refine ((yields_elementAt ms i).imp (fun _ => Fault.fitsLayouts_of_ne) fun _ => id).bind
    fun m hm => ?_
  refine ((m.yields_scaleLog offset).imp (fun e he _ => ⟨_, h m hm, he⟩) fun _ => id).bind
    fun scaled hscaled => ?_
  intro k hk
  rcases List.mem_or_eq_of_mem_set hk with hk | rfl
  · exact h k hk
  · exact hscaled ▸ h m hm

/-- Scaling the marginals of one component keeps the layouts of all. -/
theorem yields_rescaleComponent (logTotal : L) (roots : List Int)
    (h : ∀ m ∈ ms, m.layout ∈ layouts) (c : List ℕ) :
    Yields (Fault.FitsLayouts layouts) (∀ m ∈ ·, m.layout ∈ layouts)
      (rescaleComponent logTotal roots ms c) := by
  unfold rescaleComponent
  cases CliqueTree.rootIn? roots c with
  | none => exact nofun
  | some root =>
    refine ((yields_elementAt ms root).imp (fun _ => Fault.fitsLayouts_of_ne) fun _ => id).bind
      fun m hm => ?_
    refine (m.yields_totalLogWeight.imp (fun _ => Fault.fitsLayouts_of_ne) fun _ => id).bind
      fun own _ => ?_
    exact Yields.foldlM (fun ms i _ hms => yields_scaleAt _ hms i) h

/-- The factors of a marginal set have the layouts of the marginals that it is made from. -/
theorem yields_assemble (t : CliqueTree W L) (h : ∀ m ∈ ms, m.layout ∈ layouts) (given : List Int)
    (conditioned cards : OrderedMap String Int) :
    Yields (Fault.FitsLayouts layouts) (∀ m ∈ ·.factors, m.layout ∈ layouts)
      (assemble t ms given conditioned cards) := by
  have htotal : Yields (Fault.FitsLayouts layouts) (fun _ : L => True)
      (logTotalOf ms (ascending (given.foldl addOnce []))) := by
    refine Yields.foldlM (fun sum root _ _ => ?_) trivial
    refine ((yields_elementAt ms root).imp (fun _ => Fault.fitsLayouts_of_ne) fun _ => id).bind
      fun m _ => ?_
    exact (m.yields_totalLogWeight.imp (fun _ => Fault.fitsLayouts_of_ne) fun _ => id).bind
      fun _ _ => trivial
  unfold assemble
  dsimp only
  refine .refuse (Fault.fitsLayouts_of_ne nofun) (htotal.bind fun logTotal _ =>
    .refuse (Fault.fitsLayouts_of_ne nofun) ?_)
  split
  · refine Yields.bind (?_ : Yields _ (∀ m ∈ ·, m.layout ∈ layouts) _) fun _ => id
    exact .foldlM (fun ms c _ hms => yields_rescaleComponent logTotal _ hms c) h
  · exact h

end Passing

namespace CliqueTree

variable {t : CliqueTree W L} {axes : List Axis} {a b i : ℕ} {c : Clique W L} {m : Factor W L}

/-- Every marginal has the form of its clique's factor. -/
def KeepsForms (t : CliqueTree W L) : Prop :=
  ∀ (i : ℕ) (c : Clique W L), t.cliques[i]? = some c → c.marginal.form = c.factor.form

variable [WeightScale W] [WeightScale L] [LogConversion W L]

theorem KeepsForms.folding (h : t.KeepsForms) (hc : t.cliques[a]? = some c)
    {received : List (Factor W L)} (hm : c.marginal.productAll received = .ok m) (ns : List Int) :
    (t.folding a m ns).KeepsForms := by
  intro i d hd
  by_cases hia : i = a
  · subst hia
    cases (cliques_folding_self hc m ns).symm.trans hd
    exact (Factor.form_of_productAll hm).trans (h i c hc)
  · rw [cliques_folding_of_ne t hia] at hd
    exact h i d hd

omit [WeightScale W] [WeightScale L] [LogConversion W L] in
theorem KeepsForms.sending (h : t.KeepsForms) (a b : ℕ) (m : Factor W L) :
    (t.sending a b m).KeepsForms := by
  intro i c hc
  obtain ⟨d, hd, hfactor, hmarginal, -, -⟩ := exists_of_cliques_sending hc
  rw [hfactor, hmarginal]
  exact h i d hd

/-- Sending messages keeps the forms. -/
theorem Sustained.keepsForms (mode : Mode) (hd : (axes.map Axis.name).Nodup)
    (hpos : ∀ e ∈ axes, 0 < e.card) :
    Sustained mode axes fun (p : Passing W L) late =>
      Tracked axes p.tree late ∧ p.tree.KeepsForms where
  tracked h := h.1
  pass := by
    rintro p late a b ⟨h, hforms⟩ hdue
    obtain ⟨hadj, hnew, hall⟩ := h.toCoherent.due_iff.1 hdue
    obtain ⟨c, s, ns, m, g, hprep⟩ := h.toCoherent.exists_prepared hd hpos mode hadj hall
    exact ⟨g, _, hprep.pass_of_new hnew, hprep.frame_eq, fun u w => hprep.sent_iff,
      h.sending hadj hall hnew hprep, (hforms.folding hprep.clique hprep.product ns).sending a b g⟩

/-- Completing a clique keeps the forms. -/
theorem Completes.keepsForms (axes : List Axis) :
    Completes axes fun t : CliqueTree W L => Coherent axes t ∧ t.KeepsForms where
  coherent h := h.1
  fold h hdone := ⟨hdone.coherent, h.2.folding hdone.clique hdone.product _⟩

omit [WeightScale W] [WeightScale L] [LogConversion W L] in
/-- The marginal of a complete clique is stored as the clique's factor is. -/
theorem IsComplete.exists_layout_eq
    (h : IsComplete (fun t => Coherent axes t ∧ t.KeepsForms) t i m) :
    ∃ c ∈ t.cliques, m.layout = c.factor.layout := by
  obtain ⟨u, c, hframe, ⟨hcoherent, hforms⟩, hc, rfl, -⟩ := h
  obtain ⟨d, hd, hfactor, -⟩ := exists_of_frame_eq hframe hc
  refine ⟨d, List.mem_of_getElem? hd, Prod.ext ?_ ?_⟩
  · exact hfactor ▸ hforms i c hc
  · exact hfactor ▸ hcoherent.marginal_scope hc

/-- Passing the messages of a tree never fails. Then either the marginals can be taken out, stored
as the minimal factors are, or a message is missing. -/
theorem Built.ends_takeMarginals {g : FactorGraph W L} (h : Built g t) (hg : g.Sound)
    (mode : Mode) :
    ∃ roots p, Passing.run mode ⟨t, []⟩ = .ok roots p ∧
      PassingStep.Ends (· ≠ .exponentialTooLarge)
        (fun ms _ => ∀ m ∈ ms, ∃ c ∈ t.cliques, m.layout = c.factor.layout)
        (Passing.takeMarginals ⟨p.tree, []⟩) := by
  have hstart : KeepsForms { t with phase := .inProgress } := fun i c hc => by
    rw [(h.fresh hc).1]
  obtain ⟨roots, p, late, hp, hframe, -, ⟨htracked, hforms⟩, -⟩ :=
    h.run_sustained (Sustained.keepsForms mode hg.freeNames_nodup hg.card_pos)
      ⟨(h.toFresh.tracked h.wellBuilt.toWired).begin, hstart⟩
  refine ⟨roots, _, hp, ?_⟩
  have hcompletes := Completes.keepsForms (W := W) (L := L) g.freeAxes
  by_cases hall : p.tree.AllSent
  · obtain ⟨ms, q, hms, -, hcomplete⟩ := hcompletes.takeMarginals hg.freeNames_nodup
      (p := ⟨p.tree, []⟩) ⟨htracked.toCoherent, hforms⟩ hall
    rw [hms]
    intro m hm
    obtain ⟨i, -, hi⟩ := exists_of_forall₂_right hcomplete hm
    exact (hi.of_frame_eq hframe).exists_layout_eq
  · obtain ⟨k, i, q, hq⟩ := hcompletes.takeMarginals_error hg.freeNames_nodup
      (p := ⟨p.tree, []⟩) ⟨htracked.toCoherent, hforms⟩ hall
    rw [hq]
    exact nofun

end CliqueTree

/-- How a factor is stored that an engine answers with, if the graph only stores logarithms. -/
structure FactorGraph.StoredAsGiven (g : FactorGraph W L) (f : Factor W L) : Prop where
  /-- Logarithms are stored exactly if all variables are mentioned by a factor of the graph. -/
  log_iff : f.form = .log ↔ ∀ v ∈ f.names, g.mentions v = true
  /-- Weights are only stored over a single free variable that no factor mentions. -/
  of_plain : f.form = .plain → ∃ v ∈ g.freeNames, g.mentions v = false ∧ f.names = [v]

namespace FactorGraph

variable {g : FactorGraph W L} {f f' : Factor W L}

theorem StoredAsGiven.of_layout_eq (h : g.StoredAsGiven f) (hf : f'.layout = f.layout) :
    g.StoredAsGiven f' := by
  obtain ⟨hform, hscope⟩ := Prod.mk.injEq .. ▸ hf
  have hnames : f'.names = f.names := congrArg Scope.names hscope
  constructor
  · rw [hform, hnames]
    exact h.log_iff
  · rw [hform, hnames]
    exact h.of_plain

theorem StoredAsGiven.of_log (hform : f.form = .log) (hnames : ∀ v ∈ f.names, g.mentions v = true) :
    g.StoredAsGiven f where
  log_iff := ⟨fun _ => hnames, fun _ => hform⟩
  of_plain hplain := by
    rw [hform] at hplain
    cases hplain

variable [WeightScale W]

/-- A uniform factor stores weights. -/
theorem storedAsGiven_uniformOver {v : String} (hv : v ∈ g.freeNames) (hbare : g.mentions v = false)
    (n : ℕ) : g.StoredAsGiven (Factor.uniformOver v n) where
  log_iff := by
    refine ⟨nofun, fun h => ?_⟩
    rw [h v (List.mem_singleton_self v)] at hbare
    cases hbare
  of_plain _ := ⟨v, hv, hbare, rfl⟩

variable [WeightScale L] [LogConversion W L]

/-- Minimal factors take the form of the factors that they keep. -/
theorem Sound.storedAsGiven (hg : g.Sound) (hlog : ∀ f ∈ g.factors, f.form = .log)
    {fs : List (Factor W L)} (hfs : g.minimalFactors = .ok fs) : ∀ f ∈ fs, g.StoredAsGiven f := by
  obtain ⟨value, hfactors, hvalue⟩ := hg.exists_minimalFactors
  cases hfs.symm.trans hfactors
  intro f hf
  rcases List.mem_append.1 hf with hf | hf
  · obtain ⟨c, hc, rfl⟩ := List.mem_map.1 hf
    obtain ⟨hmerged, hscope⟩ := hvalue c hc
    have hkeeper : c.keeper ∈ g.factors := mem_factors_of_mem_members hc List.mem_cons_self
    refine .of_log ((Factor.form_of_productAll hmerged).trans (hlog _ hkeeper)) fun v hv => ?_
    rw [Factor.names, hscope] at hv
    exact mentions_iff.2 ⟨c.keeper, hkeeper, hv⟩
  · obtain ⟨v, hv, rfl⟩ := List.mem_map.1 hf
    obtain ⟨hfree, hbare⟩ := List.mem_filter.1 hv
    exact storedAsGiven_uniformOver hfree (by simpa using hbare) _

end FactorGraph

namespace Engine

open CliqueTree PassingStep

variable {α : Type} [WeightScale W] [WeightScale L] [LogConversion W L] {e : Engine}
  {g : FactorGraph W L} {mode : Mode} {last : String} {fault : Fault → Prop} {answer : α → Prop}

/-- What a tree answers with is made from marginals that are stored as the minimal factors are. -/
theorem yields_throughTree (hg : g.Sound) (hfree : g.freeNames ≠ [])
    (hfault : ∀ e, e ≠ .exponentialTooLarge → fault e)
    {finish : List Int → List (Factor W L) → CliqueTree W L → Except Fault α}
    (hfinish : ∀ roots ms t fs, g.minimalFactors = .ok fs →
      (∀ m ∈ ms, m.layout ∈ fs.map Factor.layout) → Yields fault answer (finish roots ms t)) :
    Yields fault answer (e.throughTree mode last g fun roots =>
      Passing.takeMarginals >>= fun ms => inspect (finish roots ms)).answer := by
  cases ht : (ofGraph e.useHint g).answer with
  | error refusal =>
    rw [throughTree_of_no_tree ht]
    refine hfault refusal fun he => ?_
    have hconstruction := isConstruction_of_ofGraph hg hfree ht
    rw [he] at hconstruction
    cases hconstruction
  | ok t =>
    have hbuilt := built_of_ofGraph hg ht
    obtain ⟨roots, p, hrun, hends⟩ := hbuilt.ends_takeMarginals hg mode
    cases hms : Passing.takeMarginals ⟨p.tree, []⟩ with
    | error missing q =>
      rw [hms] at hends
      rw [throughTree_of_error ht hrun (bind_of_error hms)]
      exact hfault missing hends
    | ok ms q =>
      rw [hms] at hends
      have hlayouts : ∀ m ∈ ms, m.layout ∈ (t.cliques.map Clique.factor).map Factor.layout := by
        intro m hm
        obtain ⟨c, hc, hlayout⟩ := hends m hm
        exact hlayout ▸ List.mem_map_of_mem (List.mem_map_of_mem hc)
      have hyields := hfinish roots ms q.tree _ hbuilt.factors_eq hlayouts
      cases hanswer : finish roots ms q.tree with
      | error refusal =>
        rw [throughTree_of_error ht hrun ((bind_of_ok hms).trans (inspect_of_error hanswer))]
        exact hyields.fault_of_eq_error hanswer
      | ok a =>
        rw [throughTree_of_ok ht hrun ((bind_of_ok hms).trans (inspect_of_ok hanswer))]
        rwa [hanswer] at hyields

section Logarithms

variable (hg : g.Sound) (hlog : ∀ f ∈ g.factors, f.form = .log)
include hlog

omit [WeightScale W] [WeightScale L] [LogConversion W L] in
theorem storedAsGiven_of_sole {f : Factor W L} (hf : soleFactor? g = some f) :
    g.StoredAsGiven f := by
  have hmem : f ∈ g.factors := by
    rw [(soleFactor?_eq_some hf).1]
    exact List.mem_singleton_self f
  exact .of_log (hlog f hmem) fun v hv => FactorGraph.mentions_iff.2 ⟨f, hmem, hv⟩

include hg

/-- An exponential can only be too large if some free variable is not mentioned. -/
theorem yields_marginals : Yields
    (fun e => e = .exponentialTooLarge → ∃ v ∈ g.freeNames, g.mentions v = false)
    (fun m => ∀ f ∈ m.factors, g.StoredAsGiven f) (e.marginals g).answer := by
  by_cases hfree : g.freeNames = []
  · obtain ⟨c, hc⟩ := FactorGraph.exists_logWeightFrom
      (OrderedMap.empty : OrderedMap String Int) (hg.axes_eq_nil hfree) WeightScale.one
    rw [answer_of_no_names hfree, FactorGraph.logWeightOf, hc]
    exact fun f hf => absurd hf List.not_mem_nil
  cases hsole : soleFactor? g with
  | some f =>
    rw [answer_of_sole hfree hsole]
    refine (f.yields_totalLogWeight.imp (fun _ he hlarge => absurd hlarge he) fun _ => id).bind
      fun c _ => ?_
    split
    · exact Fault.noConfusion
    · intro m hm
      rw [List.mem_singleton.1 hm]
      exact storedAsGiven_of_sole hlog hsole
  | none =>
    rw [marginals_eq_throughTree hfree hsole]
    refine yields_throughTree hg hfree (fun _ he hlarge => absurd hlarge he)
      fun roots ms t fs hfs hms => ?_
    refine (Passing.yields_assemble t hms roots _ _).imp (fun _ hfits hlarge => ?_)
      fun m hm f hf => ?_
    · obtain ⟨l, hl, hplain⟩ := hfits hlarge
      obtain ⟨f, hf, rfl⟩ := List.mem_map.1 hl
      obtain ⟨v, hv, hbare, -⟩ := (hg.storedAsGiven hlog hfs f hf).of_plain hplain
      exact ⟨v, hv, hbare⟩
    · obtain ⟨f', hf', hlayout⟩ := List.mem_map.1 (hm f hf)
      exact (hg.storedAsGiven hlog hfs f' hf').of_layout_eq hlayout.symm

/-- No exponential is written for max-marginals. -/
theorem yields_maxMarginals : Yields (· ≠ .exponentialTooLarge)
    (fun m => ∀ f ∈ m.factors, g.StoredAsGiven f) (e.maxMarginals g).answer := by
  by_cases hfree : g.freeNames = []
  · rw [maxAnswer_of_no_names hfree]
    exact fun f hf => absurd hf List.not_mem_nil
  cases hsole : soleFactor? g with
  | some f =>
    rw [maxAnswer_of_sole hfree hsole]
    intro m hm
    rw [List.mem_singleton.1 hm]
    exact storedAsGiven_of_sole hlog hsole
  | none =>
    rw [maxMarginals_eq_throughTree hfree hsole]
    refine yields_throughTree hg hfree (fun _ => id) fun roots ms t fs hfs hms f hf => ?_
    obtain ⟨f', hf', hlayout⟩ := List.mem_map.1 (hms f hf)
    exact (hg.storedAsGiven hlog hfs f' hf').of_layout_eq hlayout.symm

end Logarithms

/-- If all factors of a graph store logarithms, then an engine answers with logarithms, except over
a single variable that no factor mentions. If all free variables are mentioned, then no exponential
is ever written for marginals, whatever the scale; for max-marginals none is in any case. -/
theorem keeps_logarithms (e : Engine) (hg : FactorGraph.Reachable g)
    (hlog : ∀ f ∈ g.factors, f.form = .log) :
    (∀ m, (e.marginals g).answer = .ok m → ∀ f ∈ m.factors, g.StoredAsGiven f) ∧
    (∀ m, (e.maxMarginals g).answer = .ok m → ∀ f ∈ m.factors, g.StoredAsGiven f) ∧
    (e.maxMarginals g).answer ≠ .error .exponentialTooLarge ∧
    ((∀ v ∈ g.freeNames, g.mentions v = true) →
      (∀ m, (e.marginals g).answer = .ok m → ∀ f ∈ m.factors, f.form = .log) ∧
      (∀ m, (e.maxMarginals g).answer = .ok m → ∀ f ∈ m.factors, f.form = .log) ∧
      (e.marginals g).answer ≠ .error .exponentialTooLarge) := by
  have hsum := yields_marginals (e := e) hg.sound hlog
  have hmax := yields_maxMarginals (e := e) hg.sound hlog
  have hsums : ∀ m, (e.marginals g).answer = .ok m → ∀ f ∈ m.factors, g.StoredAsGiven f :=
    fun m hm => by rwa [hm] at hsum
  have hmaxs : ∀ m, (e.maxMarginals g).answer = .ok m → ∀ f ∈ m.factors, g.StoredAsGiven f :=
    fun m hm => by rwa [hm] at hmax
  refine ⟨hsums, hmaxs, fun herror => hmax.fault_of_eq_error herror rfl, fun hall => ?_⟩
  have hlogs : ∀ {f}, g.StoredAsGiven f → f.form = .log := by
    intro f hf
    cases hform : f.form with
    | log => rfl
    | plain =>
      obtain ⟨v, hv, hbare, -⟩ := hf.of_plain hform
      rw [hall v hv] at hbare
      cases hbare
  refine ⟨fun m hm f hf => hlogs (hsums m hm f hf), fun m hm f hf => hlogs (hmaxs m hm f hf),
    fun herror => ?_⟩
  obtain ⟨v, hv, hbare⟩ := hsum.fault_of_eq_error herror rfl
  rw [hall v hv] at hbare
  cases hbare

/-- Two components that store logarithms, one of which is cut down by an observation. -/
def logIslands : Except Fault (FactorGraph ℚ≥0 (FormalLog ℚ≥0)) := do
  let pairs ← FactorGraph.ofFactors
    ((pairOfFactors ++ [pairFactor "D" "E" 4 0 5 1]).map Factor.toLog)
  pairs.conditional (OrderedMap.ofList [("E", (0 : Int))])

theorem reachable_of_logIslands {g : FactorGraph ℚ≥0 (FormalLog ℚ≥0)} (h : logIslands = .ok g) :
    FactorGraph.Reachable g := by
  obtain ⟨pairs, hpairs, h⟩ := bind_eq_ok_iff.1 h
  exact .conditional (.ofFactors hpairs) h

/-- All variables are mentioned, so both components are rescaled by logarithms alone. -/
theorem keeps_logarithms_logIslands :
    ∃ g m, logIslands = .ok g ∧ (∀ f ∈ g.factors, f.form = .log) ∧
      (∀ v ∈ g.freeNames, g.mentions v = true) ∧ (standard.marginals g).answer = .ok m ∧
      ∀ f ∈ m.factors, f.form = .log := by
  have hok : (logIslands >>= fun g => (standard.marginals g).answer).toBool = true := by
    decide +kernel
  have hgiven : passes (fun g => decide ((∀ f ∈ g.factors, f.form = .log) ∧
      ∀ v ∈ g.freeNames, g.mentions v = true)) logIslands = true := by decide +kernel
  obtain ⟨m, hrun⟩ := exists_of_toBool hok
  obtain ⟨g, hg, hm⟩ := bind_eq_ok_iff.1 hrun
  rw [hg] at hgiven
  obtain ⟨hlog, hall⟩ := of_decide_eq_true hgiven
  obtain ⟨-, -, -, hmentioned⟩ := keeps_logarithms standard (reachable_of_logIslands hg) hlog
  exact ⟨g, m, hg, hlog, hall, hm, (hmentioned hall).1 m hm⟩

/-- The logarithms of weights none of which can be written. -/
abbrev unwritable : LogConversion ℚ≥0 (FormalLog ℚ≥0) where
  exp x := x.weight
  exp? _ := none
  log w := ⟨w⟩
  isBottom x := decide (x.weight = 0)

/-- If a variable is declared besides that no factor mentions, then both kinds of marginals store
weights over it, and scaling these writes an exponential. -/
theorem stores_weights_of_bare :
    ∃ g : FactorGraph ℚ≥0 (FormalLog ℚ≥0),
      (logIslands >>= fun g => g.addVariable "F" (.count 3)) = .ok g ∧
      FactorGraph.Reachable g ∧ g.freeNames ≠ [] ∧ g.factors ≠ [] ∧
      (∀ f ∈ g.factors, f.form = .log) ∧
      (∃ m, (standard.marginals g).answer = .ok m ∧ ∃ f ∈ m.factors, f.form ≠ .log) ∧
      (∃ m, (standard.maxMarginals g).answer = .ok m ∧ ∃ f ∈ m.factors, f.form ≠ .log) ∧
      (@marginals ℚ≥0 (FormalLog ℚ≥0) _ _ unwritable standard g).answer
        = .error .exponentialTooLarge := by
  obtain ⟨g, hg, hcheck⟩ := exists_of_passes
    (x := logIslands >>= fun g => g.addVariable "F" (.count 3))
    (fun g => !g.freeNames.isEmpty && !g.factors.isEmpty &&
      decide (∀ f ∈ g.factors, f.form = .log) &&
      passes (fun m : MarginalSet _ _ => decide (∃ f ∈ m.factors, f.form ≠ .log))
        (standard.marginals g).answer &&
      passes (fun m : MaxMarginalSet _ _ => decide (∃ f ∈ m.factors, f.form ≠ .log))
        (standard.maxMarginals g).answer &&
      failsWith Fault.exponentialTooLarge
        (@marginals ℚ≥0 (FormalLog ℚ≥0) _ _ unwritable standard g).answer) (by decide +kernel)
  simp only [Bool.and_eq_true, decide_eq_true_eq, Bool.not_eq_true',
    List.isEmpty_eq_false_iff] at hcheck
  obtain ⟨⟨⟨⟨⟨hfree, hfactors⟩, hlog⟩, hsum⟩, hmax⟩, hlarge⟩ := hcheck
  obtain ⟨pair, hpair, hadd⟩ := bind_eq_ok_iff.1 hg
  obtain ⟨m, hm, hweights⟩ := exists_of_passes _ hsum
  obtain ⟨k, hk, hmaxWeights⟩ := exists_of_passes _ hmax
  exact ⟨g, hg, .addVariable (reachable_of_logIslands hpair) hadd, hfree, hfactors, hlog,
    ⟨m, hm, of_decide_eq_true hweights⟩, ⟨k, hk, of_decide_eq_true hmaxWeights⟩,
    eq_error_of_failsWith hlarge⟩

end Engine

end ExactInference
