import RegionCalculus.Proofs.MissingVectors
import RegionCalculus.Proofs.SimpleCycles

/-!
# Extra arcs that cannot be counted

The cycle vectors are computed from three things of different ages: the events, the kept tree with its
vectors, and the extra arcs of the system as it is. An arc that was added in between may end outside of
the tree or carry a label that is no event. Then the cycle vectors cannot be computed, and this stays so:
arcs are never removed.

* `Tree.gap? events t a`, `WrittenTree.Counts t events x`, `WrittenTree.missing t x`: whether an extra arc
  can be counted, and what is missing if it cannot.
* `RegionUtility.errorOf?_cycleVectors`: the first extra arc that cannot be counted decides.
* `RegionUtility.cycles_of_fills`: cycle vectors come to be kept only if they could be computed.
* `Session.Blocks a t p`: an extra arc that cannot be counted; `Blocks.later`: it stays one.
* `Session.CountsArcs`: what comes of asking for cycle vectors, now and later.
* `Session.cycleVectors_fail_exactly`: this for every utility that keeps vectors and no cycle vectors.
-/

namespace RegionCalculus
set_option autoImplicit false

/-! ## Extra arcs of a tree -/

namespace Tree

variable {ι : Type} [DecidableEq ι] {events : List String} {t : Tree ι}

/-- What is missing where an extra arc is counted: the vector of its target, or else its label. -/
def gap? (events : List String) (t : Tree ι) (a : Arc ι) : Option (Gap ι) :=
  if a.target ∉ t.states then some (.target a)
  else if a.label ∉ events then some (.label a) else none

theorem errorOf?_cycleVector? {table : List (ι × List Int)} (hkeys : table.map Prod.fst = t.states)
    {a : Arc ι} (hs : a.source ∈ t.states) :
    errorOf? (cycleVector? events table a) = t.gap? events a := by
  obtain ⟨u, hu⟩ := exists_lookup (hkeys ▸ hs)
  by_cases ht : a.target ∈ t.states
  · obtain ⟨v, hv⟩ := exists_lookup (hkeys ▸ ht)
    simp only [cycleVector?, hu, hv, gap?, ht, not_true_eq_false, if_false]
    cases hcount : countEvent events a.label (List.zipWith (· - ·) u v) with
    | none => rw [if_pos (countEvent_eq_none.1 hcount), errorOf?_error]
    | some w =>
      have hlabel : ¬a.label ∉ events := fun h => by
        rw [countEvent_eq_none.2 h] at hcount
        cases hcount
      rw [if_neg hlabel, errorOf?_ok]
  · have hv : table.lookup a.target = none := lookup_eq_none_iff.2 (hkeys ▸ ht)
    simp only [cycleVector?, hu, hv, gap?, ht, not_false_eq_true, if_true, errorOf?_error]

/-- The vectors of extra arcs fail at the first arc that lacks something. -/
theorem errorOf?_cycleVectors? {table : List (ι × List Int)}
    (hkeys : table.map Prod.fst = t.states) {extra : List (Arc ι)}
    (hs : ∀ a ∈ extra, a.source ∈ t.states) :
    errorOf? (cycleVectors? events table extra) = extra.findSome? (t.gap? events) := by
  refine errorOf?_mapM fun a ha => ?_
  rw [errorOf?_map, errorOf?_cycleVector? hkeys (hs a ha)]

end Tree

namespace WrittenTree

/-- An extra arc as written can be counted: it ends in the tree, and its label is an event. -/
def Counts (t : WrittenTree) (events : List String) (x : Arc Value) : Prop :=
  x.target.key ∈ t.tree.states ∧ x.label ∈ events

instance (t : WrittenTree) (events : List String) (x : Arc Value) :
    Decidable (t.Counts events x) := inferInstanceAs (Decidable (_ ∧ _))

/-- The fault of an arc that cannot be counted: its target has no vector, or else its label no index. -/
def missing (t : WrittenTree) (x : Arc Value) : Fault :=
  if x.target.key ∉ t.tree.states then .noVector x.target else .noIndex x.label

theorem noEntry_missing (t : WrittenTree) (x : Arc Value) : (t.missing x).NoEntry := by
  unfold missing
  split <;> exact trivial

variable {t : WrittenTree} {S S' : System} {events : List String}

theorem counts_extraForm {a : Arc Key} (ha : a ∈ S.lts.arcs) :
    t.Counts events (t.extraForm S a) ↔ t.tree.gap? events a = none := by
  have hkey : (t.extraForm S a).target.key = a.target := System.key_targetForm ha
  rw [Counts, hkey, Tree.gap?]
  by_cases ht : a.target ∈ t.tree.states <;> simp [ht, extraForm]

theorem fault_gap {a : Arc Key} (ha : a ∈ S.lts.arcs) {gap : Gap Key}
    (hgap : t.tree.gap? events a = some gap) :
    RegionUtility.fault S t gap = t.missing (t.extraForm S a) := by
  have hkey : (t.extraForm S a).target.key = a.target := System.key_targetForm ha
  rw [missing, hkey]
  unfold Tree.gap? at hgap
  split at hgap
  · rename_i ht
    rw [if_pos ht, ← Option.some.inj hgap]
    rfl
  · rename_i ht
    split at hgap
    · rw [if_neg ht, ← Option.some.inj hgap]
      rfl
    · cases hgap

/-- The first arc that lacks something over keys is the first written arc that cannot be counted. -/
theorem findSome?_gap {l : List (Arc Key)} (hl : ∀ a ∈ l, a ∈ S.lts.arcs) :
    (l.findSome? (t.tree.gap? events)).map (RegionUtility.fault S t) =
      ((l.map (t.extraForm S)).find? (¬t.Counts events ·)).map t.missing := by
  induction l with
  | nil => rfl
  | cons a l ih =>
    have ha := hl a List.mem_cons_self
    have hcounts : t.Counts events (t.extraForm S a) ↔ t.tree.gap? events a = none :=
      counts_extraForm ha
    rw [List.findSome?_cons, List.map_cons, List.find?_cons]
    cases hgap : t.tree.gap? events a with
    | none =>
      rw [decide_eq_false (not_not.2 (hcounts.2 hgap))]
      exact ih fun b hb => hl b (List.mem_cons_of_mem _ hb)
    | some gap =>
      have hno : ¬t.Counts events (t.extraForm S a) := fun h => by
        rw [hcounts.1 h] at hgap
        cases hgap
      rw [decide_eq_true hno]
      exact congrArg some (fault_gap ha hgap)

end WrittenTree

/-! ## Cycle vectors of a utility -/

namespace RegionUtility

variable {S : System} {U U' : RegionUtility} {t : WrittenTree} {table : List (Key × List Int)}

/-- The kept vectors are those of the states of the kept tree. -/
theorem Charted.keys (hU : Charted U) (hE : Embedded S U) (ht : U.tree = some t)
    (hv : U.vectors = some table) : table.map Prod.fst = t.tree.states := by
  obtain ⟨t', ht', htable⟩ := hU table hv
  obtain rfl := Option.some.inj (ht.symm.trans ht')
  rcases (hE t ht).grown.parikhTable?_cases U.events with ⟨a, _, herror⟩ | ⟨_, table', hok, hkeys⟩
  · rw [herror] at htable
    cases htable
  · obtain rfl := Except.ok.inj (htable.symm.trans hok)
    exact hkeys

theorem cycleVectors_of_table (hc : U.cycles = none) (hv : U.vectors = some table)
    (ht : U.tree = some t) (hx : t.tree.extraArcs? S.lts = .ok (t.tree.extraArcs S.lts)) :
    (cycleVectors S U).answer =
      (RegionCalculus.cycleVectors? U.events table (t.tree.extraArcs S.lts)).mapError
        (fault S t) := by
  have hvectors : parikhVectors S U = ⟨.ok table, U, []⟩ := parikhVectors_of_some hv
  have htree : spanningTree S U = ⟨.ok t, U, []⟩ := spanningTree_of_some ht
  rw [cycleVectors_of_none hc, Attempt.bind_of_ok hvectors, Attempt.bind_of_ok htree, hx]
  cases hcycles : RegionCalculus.cycleVectors? U.events table (t.tree.extraArcs S.lts) <;>
    simp only [hcycles] <;> rfl

/-- The first extra arc that cannot be counted decides about the cycle vectors. -/
theorem errorOf?_cycleVectors (hS : Sheltered S U) (hE : Embedded S U) (hU : Charted U)
    (hc : U.cycles = none) (hv : U.vectors = some table) (ht : U.tree = some t) :
    errorOf? (cycleVectors S U).answer =
      (((t.tree.extraArcs S.lts).map (t.extraForm S)).find? (¬t.Counts U.events ·)).map
        t.missing := by
  rw [cycleVectors_of_table hc hv ht (hS.extraArcs? ht), errorOf?_mapError,
    Tree.errorOf?_cycleVectors? (hU.keys hE ht hv) fun a ha => (Tree.mem_extraArcs.1 ha).2.1,
    WrittenTree.findSome?_gap fun a ha => (Tree.mem_extraArcs.1 ha).1]

/-- Cycle vectors come to be kept only if they could be computed for the kept tree and vectors. -/
theorem cycles_of_fills (h : Relation.ReflTransGen (Fill S) U U') (hc : U.cycles = none)
    {cycles : List (Arc Key × List Int)} (hc' : U'.cycles = some cycles) :
    ∃ t table extra, U'.tree = some t ∧ U'.vectors = some table ∧
      t.tree.extraArcs? S.lts = .ok extra ∧
      RegionCalculus.cycleVectors? U'.events table extra = .ok cycles := by
  induction h with
  | refl =>
    rw [hc] at hc'
    cases hc'
  | tail _ hstep ih =>
    cases hstep with
    | tree hnone _ =>
      obtain ⟨t, _, _, ht, _⟩ := ih hc'
      rw [hnone] at ht
      cases ht
    | vectors _ hnone _ =>
      obtain ⟨_, table, _, _, hv, _⟩ := ih hc'
      rw [hnone] at hv
      cases hv
    | cycles htree hvectors _ hextra hcycles =>
      obtain rfl := Option.some.inj hc'
      exact ⟨_, _, _, htree, hvectors, hextra, hcycles⟩

/-- An extra arc that lacks something keeps cycle vectors from being computed. -/
theorem cycles_none_of_gap (hE : Embedded S U') (hU : Charted U')
    (h : Relation.ReflTransGen (Fill S) U U') (hc : U.cycles = none) (ht : U'.tree = some t)
    {a : Arc Key} (ha : a ∈ t.tree.extraArcs S.lts)
    (hgap : t.tree.gap? U'.events a ≠ none) : U'.cycles = none := by
  by_contra hsome
  obtain ⟨cycles, hcycles⟩ := Option.ne_none_iff_exists'.1 hsome
  obtain ⟨t', table, extra, ht', hv, hextra, hok⟩ := cycles_of_fills h hc hcycles
  obtain rfl := Option.some.inj (ht.symm.trans ht')
  obtain rfl := Tree.extraArcs_of_ok hextra
  have hnone : (t.tree.extraArcs S.lts).findSome? (t.tree.gap? U'.events) = none := by
    rw [← Tree.errorOf?_cycleVectors? (hU.keys hE ht hv) fun b hb => (Tree.mem_extraArcs.1 hb).2.1,
      hok, errorOf?_ok]
  exact hgap (List.findSome?_eq_none_iff.1 hnone a ha)

/-- What is read off the cycle vectors fails just as they do. -/
theorem errorOf?_isConsistent (S : System) (net : List Int) (U : RegionUtility) :
    errorOf? (isConsistent S net U).answer = errorOf? (cycleVectors S U).answer := by
  rw [isConsistent, Attempt.answer_bind_pure, errorOf?_map]

theorem errorOf?_cycleRows (S : System) (U : RegionUtility) :
    errorOf? (cycleRows S U).answer = errorOf? (cycleVectors S U).answer := by
  rw [cycleRows, Attempt.answer_bind_pure, errorOf?_map]

theorem errorOf?_writtenCycleVectors (S : System) (hU : U.Layered) :
    errorOf? (writtenCycleVectors S U).answer = errorOf? (cycleVectors S U).answer := by
  cases hc : (cycleVectors S U).answer with
  | error f =>
    rw [writtenCycleVectors, Attempt.answer_bind_of_error hc]
    rfl
  | ok cycles =>
    have hlayered := hU.fills (cycleVectors_leads S U)
    have hkept : (cycleVectors S U).state.tree.isSome :=
      hlayered.vectors (hlayered.cycles (by rw [cycleVectors_state hc]; rfl))
    obtain ⟨t, ht⟩ := Option.isSome_iff_exists.1 hkept
    rw [writtenCycleVectors, Attempt.answer_bind_of_ok hc, Attempt.answer_bind_pure,
      spanningTree_of_some ht]
    rfl

end RegionUtility

namespace Session

variable {s s' : Session} {u : UtilityId} {p p' : PlacedUtility} {t : WrittenTree} {a : Arc Key}

/-! ## Arcs that block cycle vectors -/

/-- The utility keeps the tree `t` and vectors but no cycle vectors, as the extra arc `a` cannot be
counted. -/
structure Blocks (a : Arc Key) (t : WrittenTree) (p : PlacedUtility) : Prop where
  tree : p.utility.tree = some t
  vectors : p.utility.vectors.isSome
  cycles : p.utility.cycles = none
  extra : a ∈ t.tree.extraArcs p.system.lts
  gap : t.tree.gap? p.utility.events a ≠ none

theorem Blocks.step (h : Blocks a t p) (hs : s.Reached) (hp : s.utility? u = some p)
    (watched : Bool) (c : Command) :
    ∃ p', (Session.step watched c s).2.utility? u = some p' ∧ Blocks a t p' := by
  obtain ⟨p', hp', hbecomes⟩ := step_utility? hs watched c hp
  have hs' : (Session.step watched c s).2.Reached := .step watched c hs
  obtain ⟨table, hv⟩ := Option.isSome_iff_exists.1 h.vectors
  obtain ⟨hmem, hsource, htree⟩ := Tree.mem_extraArcs.1 h.extra
  have hextra : a ∈ t.tree.extraArcs p'.system.lts :=
    Tree.mem_extraArcs.2 ⟨hbecomes.grows.arcs_subset hmem, hsource, htree⟩
  have hgap : t.tree.gap? p'.utility.events a ≠ none := by
    rw [hbecomes.events]
    exact h.gap
  have hkept := hbecomes.tree t h.tree
  have hblocked : ∀ U, U.cycles = none →
      Relation.ReflTransGen (RegionUtility.Fill p'.system) U p'.utility →
      p'.utility.cycles = none := fun U hc hfills =>
    RegionUtility.cycles_none_of_gap (hs'.embedded u p' hp') (hs'.charted u p' hp') hfills hc hkept
      hextra hgap
  refine ⟨p', hp', hkept, by rw [hbecomes.vectors table hv]; rfl, ?_, hextra, hgap⟩
  rcases step_utility?_cases hs watched c hp' with
    (⟨U, hU, hfills⟩ | ⟨U, hblank, hfills⟩) | ⟨S, hold, _⟩
  · obtain rfl := Option.some.inj (hp.symm.trans hU)
    exact hblocked U h.cycles hfills
  · exact hblocked U hblank.cycles hfills
  · obtain rfl := Option.some.inj (hp.symm.trans hold)
    exact h.cycles

theorem Blocks.later (h : Blocks a t p) (hs : s.Reached) (hp : s.utility? u = some p)
    (hlater : s.Later s') : ∃ p', s'.utility? u = some p' ∧ Blocks a t p' := by
  apply hlater.keeps hs
  case hstart => exact ⟨p, hp, h⟩
  case hstep =>
    rintro s watched c hs ⟨q, hq, hblocks⟩
    exact hblocks.step hs hq watched c

/-! ## Commands that need cycle vectors -/

theorem errorOf?_tellUtility_cycleVectors (hU : p.utility.Layered) (s : Session) :
    errorOf? (tellUtility p .cycleVectors s).answer =
      errorOf? (RegionUtility.cycleVectors p.system p.utility).answer := by
  rw [tellUtility_cycleVectors, errorOf?_map, RegionUtility.errorOf?_writtenCycleVectors _ hU]

theorem errorOf?_tellUtility_cycleMatrix (p : PlacedUtility) (s : Session) :
    errorOf? (tellUtility p .cycleMatrix s).answer =
      errorOf? (RegionUtility.cycleVectors p.system p.utility).answer := by
  have hanswer : (tellUtility p .cycleMatrix s).answer =
      (RegionUtility.cycleRows p.system p.utility).answer.map (.matrix p.utility.size) :=
    Attempt.answer_bind_pure _ _ _
  rw [hanswer, errorOf?_map, RegionUtility.errorOf?_cycleRows]

theorem errorOf?_tellRegion_isConsistent (watched : Bool) (q : PlacedRegion) (s : Session) :
    errorOf? (tellRegion watched q .isConsistent s).answer =
      errorOf? (RegionUtility.cycleVectors q.system q.holding.utility).answer := by
  rw [tellRegion_isConsistent, errorOf?_map, Region.isConsistent_eq, Region.ask_answer,
    RegionUtility.errorOf?_isConsistent]

/-- The first extra arc that cannot be counted decides about the answer. -/
theorem Reached.errorOf?_cycleVectors (hs : s.Reached) (hp : s.utility? u = some p)
    (hv : p.utility.vectors.isSome) (hc : p.utility.cycles = none) (ht : p.utility.tree = some t) :
    errorOf? (tellUtility p .cycleVectors s).answer =
      (((t.tree.extraArcs p.system.lts).map (t.extraForm p.system)).find?
        (¬t.Counts p.utility.events ·)).map t.missing := by
  obtain ⟨table, htable⟩ := Option.isSome_iff_exists.1 hv
  rw [errorOf?_tellUtility_cycleVectors (hs.anchored _ _ hp).layered,
    RegionUtility.errorOf?_cycleVectors (hs.sheltered hp) (hs.embedded _ _ hp) (hs.charted _ _ hp)
      hc htable ht]

theorem exists_blocks (hv : p.utility.vectors.isSome) (hc : p.utility.cycles = none)
    (ht : p.utility.tree = some t) {x : Arc Value}
    (hx : x ∈ (t.tree.extraArcs p.system.lts).map (t.extraForm p.system))
    (hno : ¬t.Counts p.utility.events x) : ∃ a, Blocks a t p := by
  obtain ⟨a, ha, rfl⟩ := List.mem_map.1 hx
  exact ⟨a, ht, hv, hc, ha, fun hgap =>
    hno ((WrittenTree.counts_extraForm (Tree.mem_extraArcs.1 ha).1).2 hgap)⟩

/-- A command that is blocked finds no entry. -/
theorem Blocks.refused (h : Blocks a t p) (hs : s.Reached) (hp : s.utility? u = some p) :
    ∃ g, g.NoEntry ∧ (tellUtility p .cycleVectors s).answer = .error g := by
  have hdecides := hs.errorOf?_cycleVectors hp h.vectors h.cycles h.tree
  have hno : ¬t.Counts p.utility.events (t.extraForm p.system a) := fun hcounts =>
    h.gap ((WrittenTree.counts_extraForm (Tree.mem_extraArcs.1 h.extra).1).1 hcounts)
  cases hfirst : ((t.tree.extraArcs p.system.lts).map (t.extraForm p.system)).find?
      (¬t.Counts p.utility.events ·) with
  | none =>
    have hmem := List.mem_map_of_mem (f := t.extraForm p.system) h.extra
    exact absurd hno (by simpa using List.find?_eq_none.1 hfirst _ hmem)
  | some x =>
    rw [hfirst] at hdecides
    exact ⟨t.missing x, t.noEntry_missing x, errorOf?_eq_some.1 hdecides⟩

/-- An answered command keeps the cycle vectors, so that it is answered from then on. -/
theorem cycleVectors_answered_later {on : SlotName} {watched : Bool} (hs : s.Reached)
    (hp : s.utilityIn? on = some p) {b : Answer}
    (hb : (step watched (.toUtility on .cycleVectors) s).1.answer = .ok b)
    (hlater : (step watched (.toUtility on .cycleVectors) s).2.Later s') :
    ∃ q, s'.utility? p.id = some q ∧ ∃ b, (tellUtility q .cycleVectors s').answer = .ok b := by
  obtain ⟨_, hplaced⟩ := utilityIn?_eq_some_iff.1 hp
  have hreached : (step watched (.toUtility on .cycleVectors) s).2.Reached := .step watched _ hs
  obtain ⟨hanswer, hafter⟩ := step_toUtility hp watched .cycleVectors
  have hleads := RegionUtility.writtenCycleVectors_leads p.system p.utility
  rw [hanswer, tellUtility_cycleVectors] at hb
  cases hvectors : (RegionUtility.writtenCycleVectors p.system p.utility).answer with
  | error f =>
    rw [hvectors] at hb
    cases hb
  | ok vectors =>
    obtain ⟨cycles, t, hcycles, ht, _⟩ := RegionUtility.writtenCycleVectors_state hvectors
    have hstate : (tellUtility p .cycleVectors s).state =
        (onUtility p (RegionUtility.writtenCycleVectors p.system) s).state :=
      Attempt.state_bind_pure _ _ _
    have hfound := utility?_onUtility hplaced hleads
    rw [← hstate, ← hafter] at hfound
    obtain ⟨q, hq, hbecomes⟩ := hlater.utility? hreached hfound
    refine ⟨q, hq, ?_⟩
    rw [tellUtility_cycleVectors, RegionUtility.writtenCycleVectors_of_kept
      (hbecomes.cycles _ hcycles) (hbecomes.tree _ ht)]
    exact ⟨_, rfl⟩

/-- What comes of asking the utility `p` for cycle vectors in `s`, where it keeps vectors but no cycle
vectors: `arcs` are the extra arcs, and `told` is what becomes of the command. -/
structure CountsArcs (p : PlacedUtility) (s : Session) (told : Result × Session) (t : WrittenTree)
    (arcs : List (Arc Value)) : Prop where
  kept : p.utility.tree = some t
  extra : t.extraArcs? p.system = .ok arcs
  sources : ∀ table, p.utility.vectors = some table →
    ∀ x ∈ arcs, (table.lookup x.source.key).isSome
  fails_iff : (∃ f, f.NoEntry ∧ told.1.answer = .error f) ↔
    ∃ x ∈ arcs, ¬t.Counts p.utility.events x
  first : ∀ x, arcs.find? (¬t.Counts p.utility.events ·) = some x →
    told.1.answer = .error (t.missing x)
  answered : (∀ x ∈ arcs, t.Counts p.utility.events x) → ∃ a, told.1.answer = .ok a
  failure_lasts : ∀ f, told.1.answer = .error f → ∀ s', s.Later s' →
    ∃ q, s'.utility? p.id = some q ∧ q.utility.cycles = none ∧
      ∃ g, g.NoEntry ∧ (tellUtility q .cycleVectors s').answer = .error g
  success_lasts : ∀ a, told.1.answer = .ok a → ∀ s', told.2.Later s' →
    ∃ q, s'.utility? p.id = some q ∧ ∃ b, (tellUtility q .cycleVectors s').answer = .ok b
  matrix : ∀ s', s.Later s' → ∀ q, s'.utility? p.id = some q →
    errorOf? (tellUtility q .cycleMatrix s').answer =
      errorOf? (tellUtility q .cycleVectors s').answer
  consistent : ∀ s', s.Later s' → ∀ q, s'.utility? p.id = some q →
    ∀ watched r o, s'.region? r = some o → o.owner.id = p.id →
      errorOf? (tellRegion watched o .isConsistent s').answer =
        errorOf? (tellUtility q .cycleVectors s').answer

theorem isSome_lookup_source {arcs : List (Arc Value)} {table : List (Key × List Int)}
    (hE : t.Inside p.system) (hkeys : table.map Prod.fst = t.tree.states)
    (harcs : arcs = (t.tree.extraArcs p.system.lts).map (t.extraForm p.system)) :
    ∀ x ∈ arcs, (table.lookup x.source.key).isSome := by
  intro x hx
  rw [harcs] at hx
  obtain ⟨a, ha, rfl⟩ := List.mem_map.1 hx
  have hsource := (Tree.mem_extraArcs.1 ha).2.1
  have hkey : (t.form a.source).key = a.source := WrittenTree.key_form (hE.forms ▸ hsource)
  obtain ⟨v, hv⟩ := exists_lookup (hkeys ▸ hsource)
  change (table.lookup (t.form a.source).key).isSome
  rw [hkey, hv]
  rfl

/-- While a utility keeps vectors and no cycle vectors, they are refused just if an extra arc cannot be
counted, and the first such arc is named. A refusal is for good, and so is an answer; and what is read
off the cycle vectors is refused just as they are. -/
theorem cycleVectors_fail_exactly {on : SlotName} (hs : s.Reached) (hp : s.utilityIn? on = some p)
    (hv : p.utility.vectors.isSome) (hc : p.utility.cycles = none) (watched : Bool) :
    ∃ t arcs, CountsArcs p s (step watched (.toUtility on .cycleVectors) s) t arcs := by
  obtain ⟨_, hplaced⟩ := utilityIn?_eq_some_iff.1 hp
  obtain ⟨table, htable⟩ := Option.isSome_iff_exists.1 hv
  obtain ⟨t, ht, _⟩ := hs.charted _ _ hplaced table htable
  have hE := hs.embedded _ _ hplaced
  have hextra := (hs.sheltered hplaced).extraArcs? ht
  obtain ⟨hanswer, _⟩ := step_toUtility hp watched .cycleVectors
  have hdecides := hs.errorOf?_cycleVectors hplaced hv hc ht
  rw [← hanswer] at hdecides
  have huncounted : ∀ f, (step watched (.toUtility on .cycleVectors) s).1.answer = .error f →
      ∃ x ∈ (t.tree.extraArcs p.system.lts).map (t.extraForm p.system),
        ¬t.Counts p.utility.events x := by
    intro f hf
    rw [hf, errorOf?_error] at hdecides
    obtain ⟨x, hx, _⟩ := Option.map_eq_some_iff.1 hdecides.symm
    exact ⟨x, List.mem_of_find?_eq_some hx, by simpa using List.find?_some hx⟩
  refine ⟨t, (t.tree.extraArcs p.system.lts).map (t.extraForm p.system),
    { kept := ht
      extra := by simp only [WrittenTree.extraArcs?, hextra]
      sources := fun table' htable' => ?_
      fails_iff := ⟨?_, ?_⟩
      first := fun x hx => ?_
      answered := fun hall => ?_
      failure_lasts := fun f hf s' hlater => ?_
      success_lasts := fun b hb s' hlater => cycleVectors_answered_later hs hp hb hlater
      matrix := fun s' hlater q hq => ?_
      consistent := fun s' hlater q hq watched' r o ho hid => ?_ }⟩
  · have hkeys := (hs.charted _ _ hplaced).keys hE ht htable'
    exact isSome_lookup_source (hE t ht) hkeys rfl
  · rintro ⟨f, _, hf⟩
    exact huncounted f hf
  · rintro ⟨x, hx, hno⟩
    obtain ⟨a, hblocks⟩ := exists_blocks hv hc ht hx hno
    rw [hanswer]
    exact hblocks.refused hs hplaced
  · rw [hx] at hdecides
    exact errorOf?_eq_some.1 hdecides
  · rw [List.find?_eq_none.2 fun x hx => by simpa using hall x hx] at hdecides
    exact errorOf?_eq_none.1 hdecides
  · obtain ⟨x, hx, hno⟩ := huncounted f hf
    obtain ⟨a, hblocks⟩ := exists_blocks hv hc ht hx hno
    obtain ⟨q, hq, hblocks'⟩ := hblocks.later hs hplaced hlater
    exact ⟨q, hq, hblocks'.cycles, hblocks'.refused (hlater.reached hs) hq⟩
  · have hlayered := ((hlater.reached hs).anchored _ _ hq).layered
    rw [errorOf?_tellUtility_cycleMatrix, errorOf?_tellUtility_cycleVectors hlayered]
  · have hlayered := ((hlater.reached hs).anchored _ _ hq).layered
    obtain ⟨hU, hS⟩ := owner_eq hq ho hid
    rw [errorOf?_tellRegion_isConsistent, errorOf?_tellUtility_cycleVectors hlayered, hU, hS]

/-! ## A loop that comes too late -/

/-- The ring after its vectors were asked for and then got a loop with a label that is no event. -/
def loopedRing : Session :=
  (run false [.toUtility "utility" .parikhMatrix,
    .toSystem "lts" (.createArc (.text "s1") (.text "s1") (.text "d"))] ringSession).2

theorem cycleVectors_fail_exactly_loopedRing :
    ∃ p t arcs, loopedRing.Reached ∧ loopedRing.utilityIn? "utility" = some p ∧
      p.utility.vectors.isSome ∧ p.utility.cycles = none ∧
      CountsArcs p loopedRing (step false (.toUtility "utility" .cycleVectors) loopedRing) t arcs := by
  have hs : loopedRing.Reached := steady_ringSession.reached.run false _
  have hfound : (loopedRing.utilityIn? "utility").any
      (fun p => p.utility.vectors.isSome && p.utility.cycles.isNone) := by decide +kernel
  obtain ⟨p, hp, hkept⟩ := (Option.any_eq_true ..).1 hfound
  obtain ⟨hv, hc⟩ := Bool.and_eq_true_iff.1 hkept
  have hc := Option.isNone_iff_eq_none.1 hc
  obtain ⟨t, arcs, hcounts⟩ := cycleVectors_fail_exactly hs hp hv hc false
  exact ⟨p, t, arcs, hs, hp, hv, hc, hcounts⟩

end Session

end RegionCalculus
