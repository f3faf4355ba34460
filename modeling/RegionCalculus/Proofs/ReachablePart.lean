import RegionCalculus.Proofs.Accounts
import RegionCalculus.Proofs.Afresh
import RegionCalculus.Proofs.DepthFirst

/-!
# The reachable part of a system

A search only looks at arcs out of states that it has found, and everything else is read off its
tree. Two systems that start at the same state and have the same arcs out of every state that can be
reached are alike for their utilities, whatever other states and arcs they have.

* `Lts.SamePostsets G H root`: the arcs out of every state that can be reached are the same in `H`.
* `Lts.SamePostsets.spanningTree_eq`, `extraArcs_eq`, `potential_iff`: so are trees and potentials.
* `SameTrees t₁ S₁ t₂ S₂`: the trees agree, and so do the extra arcs and the cycles.
* `Session.SameVectors`, `SameMarkings`: two utilities answer alike, and so do two regions.
* `Session.reachable_part_decides`: all of this follows for utilities of steady sessions.
-/

namespace RegionCalculus
set_option autoImplicit false

/-! ## Systems with the same arcs out of reachable states -/

section Keys

variable {ι : Type} [DecidableEq ι]

namespace Tree

/-- The fundamental cycles as sorted lists of arcs, each once, in the order of words. -/
def basis (t : Tree ι) (G : Lts ι) : List (List (Arc ι)) :=
  (distinct ((t.extraArcs G).map fun a => t.sortArcs (a :: t.treePath a.source a.target))).mergeSort
    fun x y => (t.compareWords x y).isLE

theorem mem_basis {t : Tree ι} {G : Lts ι} {c : List (Arc ι)} :
    c ∈ t.basis G ↔
      ∃ a ∈ t.extraArcs G, t.sortArcs (a :: t.treePath a.source a.target) = c := by
  rw [basis, List.mem_mergeSort, mem_distinct, List.mem_map]

theorem Grown.cycleBasis?_of_ends {t : Tree ι} (ht : t.Grown) {G : Lts ι}
    (h : ∀ s ∈ t.states, s ∈ G.states) (hends : ∀ a ∈ t.extraArcs G, a.target ∈ t.states) :
    t.cycleBasis? G = .ok (t.basis G) := by
  rw [cycleBasis?, ht.fundamentalCycles?_of_ends h hends, basis]
  simp only [bind, Except.bind, pure, Except.pure, List.map_map]
  rfl

end Tree

namespace Lts

variable {G H : Lts ι} {root : ι}

def SamePostsets (G H : Lts ι) (root : ι) : Prop :=
  ∀ k, G.Reach root k → G.postset k = H.postset k

theorem SamePostsets.mem_arcs_iff (h : G.SamePostsets H root) {a : Arc ι}
    (hs : G.Reach root a.source) : a ∈ G.arcs ↔ a ∈ H.arcs := by
  have hG : a ∈ G.postset a.source ↔ a ∈ G.arcs := by simp
  have hH : a ∈ H.postset a.source ↔ a ∈ H.arcs := by simp
  rw [← hG, ← hH, h _ hs]

theorem SamePostsets.reach_iff (h : G.SamePostsets H root) {k : ι} :
    G.Reach root k ↔ H.Reach root k := by
  constructor
  · intro hk
    induction hk with
    | root => exact .root
    | arc ha hs ih => exact .arc ((h.mem_arcs_iff hs).1 ha) ih
  · intro hk
    induction hk with
    | root => exact .root
    | arc ha _ ih => exact .arc ((h.mem_arcs_iff ih).2 ha) ih

theorem SamePostsets.potential_iff (h : G.SamePostsets H root) {w : String → Int} {φ : ι → Int} :
    G.Potential root w φ ↔ H.Potential root w φ := by
  constructor
  · intro hφ a ha hs
    have hsource := h.reach_iff.2 hs
    exact hφ a ((h.mem_arcs_iff hsource).2 ha) hsource
  · intro hφ a ha hs
    exact hφ a ((h.mem_arcs_iff hs).1 ha) (h.reach_iff.1 hs)

/-- The recursive procedure does the same in both systems: it takes arcs out of states that can be
reached, and no others. -/
theorem Follows.of_samePostsets (h : G.SamePostsets H root) {t t' : Tree ι} {as : List (Arc ι)}
    (hf : G.Follows t as t') (has : ∀ a ∈ as, G.Reach root a.target) : H.Follows t as t' := by
  induction hf with
  | done t => exact .done t
  | pass hseen _ ih => exact .pass hseen (ih fun b hb => has b (List.mem_cons_of_mem _ hb))
  | @visit t t₁ t₂ a rest hnew _ _ ih₁ ih₂ =>
    have htarget : G.Reach root a.target := has a List.mem_cons_self
    have hout : ∀ b ∈ (G.postset a.target).reverse, G.Reach root b.target := by
      intro b hb
      obtain ⟨harc, hsource⟩ := mem_postset.1 (List.mem_reverse.1 hb)
      exact .arc harc (hsource ▸ htarget)
    have hvisit := ih₁ hout
    rw [h _ htarget] at hvisit
    exact .visit hnew hvisit (ih₂ fun b hb => has b (List.mem_cons_of_mem _ hb))

theorem SamePostsets.spanningTree_eq (h : G.SamePostsets H root) (hG : G.Valid) (hH : H.Valid) :
    G.spanningTree root = H.spanningTree root := by
  have hvisits : G.Follows ⟨root, []⟩ (G.postset root).reverse (G.spanningTree root) :=
    (visits_iff hG root).2 rfl
  have hout : ∀ b ∈ (G.postset root).reverse, G.Reach root b.target := by
    intro b hb
    obtain ⟨harc, hsource⟩ := mem_postset.1 (List.mem_reverse.1 hb)
    exact .arc harc (hsource ▸ .root)
  have hsame := hvisits.of_samePostsets h hout
  rw [h root .root] at hsame
  exact (visits_iff hH root).1 hsame

theorem SamePostsets.extraArcs_eq (h : G.SamePostsets H root) (hG : G.Valid) (hH : H.Valid) :
    (G.spanningTree root).extraArcs G = (H.spanningTree root).extraArcs H := by
  rw [← h.spanningTree_eq hG hH, Tree.extraArcs, Tree.extraArcs, List.flatMap_def, List.flatMap_def]
  refine congrArg List.flatten (List.map_congr_left fun k hk => ?_)
  rw [h k ((mem_states_spanningTree hG).1 hk)]

theorem SamePostsets.basis_eq (h : G.SamePostsets H root) (hG : G.Valid) (hH : H.Valid) :
    (G.spanningTree root).basis G = (H.spanningTree root).basis H := by
  rw [Tree.basis, Tree.basis, h.extraArcs_eq hG hH, h.spanningTree_eq hG hH]

theorem cycleBasis?_spanningTree (hG : G.Valid) (hroot : root ∈ G.states) :
    (G.spanningTree root).cycleBasis? G = .ok ((G.spanningTree root).basis G) :=
  (grown_spanningTree hG root).cycleBasis?_of_ends
    (fun _ hs => ((mem_states_spanningTree hG).1 hs).mem_states hG hroot)
    fun _ => ends_of_mem_extraArcs hG

end Lts

end Keys

/-! ## What is read off a spanning tree -/

/-- The written cycles of a basis name its cycles, if the extra arcs end in the tree. -/
theorem WrittenTree.map_key_basis {t : WrittenTree} {S : System} (ht : t.tree.Grown)
    (hforms : t.forms.map Value.key = t.tree.states)
    (hends : ∀ a ∈ t.tree.extraArcs S.lts, a.target ∈ t.tree.states) :
    ((t.tree.basis S.lts).map (List.map (t.cycleArcForm S))).map (List.map (Arc.map Value.key)) =
      t.tree.basis S.lts := by
  have hcycles : ∀ c ∈ t.tree.basis S.lts,
      (c.map (t.cycleArcForm S)).map (Arc.map Value.key) = c := by
    intro c hc
    obtain ⟨a, ha, rfl⟩ := Tree.mem_basis.1 hc
    exact map_key_sortedCycle ht hforms ha (hends a ha)
  rw [List.map_map]
  exact (List.map_congr_left hcycles).trans (List.map_id _)

namespace System

variable {S : System} {init : Value} {events : List String}

theorem map_key_extraArcs? (hS : S.lts.Valid) (hi : S.initial? = .ok init) :
    ((S.treeFrom init).extraArcs? S).map (List.map (Arc.map Value.key)) =
      .ok ((S.lts.spanningTree init.key).extraArcs S.lts) := by
  rw [extraArcs?_treeFrom hS hi]
  exact congrArg Except.ok (map_key_map_extraForm hi)

theorem map_key_cycleBasis? (hS : S.lts.Valid) (hi : S.initial? = .ok init) :
    ((S.treeFrom init).cycleBasis? S).map (List.map (List.map (Arc.map Value.key))) =
      .ok ((S.lts.spanningTree init.key).basis S.lts) := by
  have hbasis := Lts.cycleBasis?_spanningTree hS (initial_mem hS hi)
  have hwritten : (S.treeFrom init).cycleBasis? S =
      .ok (((S.lts.spanningTree init.key).basis S.lts).map
        (List.map ((S.treeFrom init).cycleArcForm S))) := by
    simp only [WrittenTree.cycleBasis?, treeFrom, hbasis]
  rw [hwritten]
  exact congrArg Except.ok (WrittenTree.map_key_basis (t := S.treeFrom init)
    (grown_treeFrom hS init) (map_key_treeFrom hi) fun _ => Lts.ends_of_mem_extraArcs hS)

theorem parikhRows?_eq (hS : S.lts.Valid) (hi : S.initial? = .ok init)
    (he : EventOrder S.lts events) :
    S.parikhRows? events = .ok ((S.lts.spanningTree init.key).states.map
      ((S.lts.spanningTree init.key).vector events)) := by
  rw [parikhRows?, vectors?_eq hS hi he, spanningTree?_of_initial hi]
  refine congrArg Except.ok ?_
  rw [← List.filterMap_eq_map]
  refine List.filterMap_congr fun k hk => ?_
  exact Lts.lookup_vectorTable hS events ((Lts.mem_states_spanningTree hS).1 hk)

theorem cycleRows?_eq (hS : S.lts.Valid) (hi : S.initial? = .ok init)
    (he : EventOrder S.lts events) :
    S.cycleRows? events = .ok (((S.lts.spanningTree init.key).extraArcs S.lts).map
      ((S.lts.spanningTree init.key).cycleVector events)) := by
  rw [cycleRows?, cycleVectors?_eq hS hi he, Except.map, List.map_map]
  rfl

theorem map_key_writtenVectors (hi : S.initial? = .ok init) (events : List String) :
    (S.writtenVectors init events).map (Prod.map (Arc.map Value.key) id) =
      ((S.lts.spanningTree init.key).extraArcs S.lts).map fun a =>
        (a, (S.lts.spanningTree init.key).cycleVector events a) := by
  rw [writtenVectors, List.map_map]
  refine List.map_congr_left fun a ha => ?_
  exact congrArg (·, (S.lts.spanningTree init.key).cycleVector events a)
    (map_key_extraForms hi a ha)

/-- If the arcs out of the states that can be reached are answered alike, they are the same. -/
theorem samePostsets {S₁ S₂ : System} {init : Value} (hS : S₁.lts.Valid)
    (hi : S₁.initial? = .ok init)
    (hpost : ∀ v : Value, S₁.lts.Reach init.key v.key →
      (S₁.postset? v).map (List.map (Arc.map Value.key)) =
        (S₂.postset? v).map (List.map (Arc.map Value.key))) :
    S₁.lts.SamePostsets S₂.lts init.key := by
  intro k hk
  obtain ⟨v, hv, rfl⟩ := List.mem_map.1 (hk.mem_states hS (initial_mem hS hi))
  have hsame := hpost v hk
  have hhas : S₁.Has v := List.mem_map_of_mem hv
  rw [postset?_of_has hhas] at hsame
  by_cases hhas₂ : S₂.Has v
  · rw [postset?_of_has hhas₂] at hsame
    have hkeys := Except.ok.inj hsame
    rwa [map_key_postsetOf, map_key_postsetOf] at hkeys
  · have hrefused : S₂.postset? v = .error (.unknownState v) := by
      rw [postset?, require, if_neg hhas₂]
      rfl
    rw [hrefused] at hsame
    cases hsame

end System

/-! ## Trees -/

/-- Both trees have the same states in the same order of discovery and the same parent arcs, and the
systems have the same extra arcs and the same cycle basis with respect to them. All are compared by
the keys of states. -/
structure SameTrees (t₁ : WrittenTree) (S₁ : System) (t₂ : WrittenTree) (S₂ : System) : Prop where
  tree : t₁.tree = t₂.tree
  states : t₁.forms.map Value.key = t₂.forms.map Value.key
  parent : ∀ v : Value, v.key ∈ t₁.forms.map Value.key → ∃ a,
    (t₁.parentArc? v).map (Option.map (Arc.map Value.key)) = .ok a ∧
      (t₂.parentArc? v).map (Option.map (Arc.map Value.key)) = .ok a
  extra : ∃ arcs, (t₁.extraArcs? S₁).map (List.map (Arc.map Value.key)) = .ok arcs ∧
    (t₂.extraArcs? S₂).map (List.map (Arc.map Value.key)) = .ok arcs
  basis : ∃ cycles,
    (t₁.cycleBasis? S₁).map (List.map (List.map (Arc.map Value.key))) = .ok cycles ∧
      (t₂.cycleBasis? S₂).map (List.map (List.map (Arc.map Value.key))) = .ok cycles

theorem WrittenTree.map_key_parentArc?_eq {t : WrittenTree} (ht : t.tree.Grown)
    (hforms : t.forms.map Value.key = t.tree.states) {v : Value} (hv : v.key ∈ t.tree.states) :
    (t.parentArc? v).map (Option.map (Arc.map Value.key)) = .ok (t.tree.parentArc v.key) := by
  obtain ⟨found, hfound, hkeys⟩ := map_key_parentArc? ht hforms hv
  rw [hfound]
  exact congrArg Except.ok hkeys

namespace System

variable {S₁ S₂ : System} {init₁ init₂ : Value}

theorem sameTrees (h : S₁.lts.SamePostsets S₂.lts init₁.key) (hS₁ : S₁.lts.Valid)
    (hS₂ : S₂.lts.Valid) (hi₁ : S₁.initial? = .ok init₁) (hi₂ : S₂.initial? = .ok init₂)
    (hstart : init₁.key = init₂.key) :
    SameTrees (S₁.treeFrom init₁) S₁ (S₂.treeFrom init₂) S₂ := by
  have htree : (S₁.treeFrom init₁).tree = (S₂.treeFrom init₂).tree := by
    rw [treeFrom, treeFrom, h.spanningTree_eq hS₁ hS₂, hstart]
  refine ⟨htree, ?_, fun v hv => ?_, ?_, ?_⟩
  · rw [map_key_treeFrom hi₁, map_key_treeFrom hi₂, htree]
  · rw [map_key_treeFrom hi₁] at hv
    refine ⟨(S₁.treeFrom init₁).tree.parentArc v.key,
      WrittenTree.map_key_parentArc?_eq (grown_treeFrom hS₁ init₁) (map_key_treeFrom hi₁) hv, ?_⟩
    rw [htree] at hv ⊢
    exact WrittenTree.map_key_parentArc?_eq (grown_treeFrom hS₂ init₂) (map_key_treeFrom hi₂) hv
  · refine ⟨_, map_key_extraArcs? hS₁ hi₁, ?_⟩
    rw [h.extraArcs_eq hS₁ hS₂, hstart]
    exact map_key_extraArcs? hS₂ hi₂
  · refine ⟨_, map_key_cycleBasis? hS₁ hi₁, ?_⟩
    rw [h.basis_eq hS₁ hS₂, hstart]
    exact map_key_cycleBasis? hS₂ hi₂

end System

namespace Session

variable {u₁ u₂ : UtilityId} {S₁ S₂ : System} {s₁ s₂ : Session} {r₁ r₂ : RegionId}
  {q₁ q₂ : PlacedUtility} {p₁ p₂ : PlacedRegion} {init₁ init₂ : Value}

/-! ## Utilities -/

/-- Both utilities answer the states of these trees, and the same vectors for the states that can be
reached and for the extra arcs. -/
structure SameVectors (s₁ s₂ : Session) (q₁ q₂ : PlacedUtility) (t₁ t₂ : WrittenTree) (S : System)
    (init : Value) : Prop where
  states₁ : (tellUtility q₁ .reachable s₁).answer = .ok (.values t₁.forms)
  states₂ : (tellUtility q₂ .reachable s₂).answer = .ok (.values t₂.forms)
  vector : ∀ v : Value, S.lts.Reach init.key v.key → ∃ x,
    (tellUtility q₁ (.reachingVector v) s₁).answer = .ok (.numbers x) ∧
      (tellUtility q₂ (.reachingVector v) s₂).answer = .ok (.numbers x)
  matrix : ∃ n rows, (tellUtility q₁ .parikhMatrix s₁).answer = .ok (.matrix n rows) ∧
    (tellUtility q₂ .parikhMatrix s₂).answer = .ok (.matrix n rows)
  cycles : ∃ vs₁ vs₂, (tellUtility q₁ .cycleVectors s₁).answer = .ok (.arcVectors vs₁) ∧
    (tellUtility q₂ .cycleVectors s₂).answer = .ok (.arcVectors vs₂) ∧
      vs₁.map (Prod.map (Arc.map Value.key) id) = vs₂.map (Prod.map (Arc.map Value.key) id)
  cycleMatrix : ∃ n rows, (tellUtility q₁ .cycleMatrix s₁).answer = .ok (.matrix n rows) ∧
    (tellUtility q₂ .cycleMatrix s₂).answer = .ok (.matrix n rows)

section Queries

variable {S : System} {U : RegionUtility} {s : Session} {u : UtilityId} {init : Value}

theorem tellUtility_reachable (hU : U.InStep S) (hi : S.initial? = .ok init) :
    (tellUtility ⟨u, U, S⟩ .reachable s).answer = .ok (.values (S.treeFrom init).forms) := by
  have hanswer := hU.reachableStates_afresh
  rw [System.treeStates?, System.spanningTree?_of_initial hi] at hanswer
  exact (Attempt.answer_bind_pure _ _ _).trans (congrArg (Except.map Answer.values) hanswer)

theorem tellUtility_reachingVector (hU : U.InStep S) (hS : S.lts.Valid)
    (hi : S.initial? = .ok init) {v : Value} (hv : S.lts.Reach init.key v.key) :
    (tellUtility ⟨u, U, S⟩ (.reachingVector v) s).answer =
      .ok (.numbers ((S.lts.spanningTree init.key).vector U.events v.key)) :=
  (Attempt.answer_bind_pure _ _ _).trans
    (congrArg (Except.map Answer.numbers) (hU.reachingVector_of_reach hS hi hv))

theorem tellUtility_parikhMatrix (hU : U.InStep S) (hS : S.lts.Valid)
    (hi : S.initial? = .ok init) :
    (tellUtility ⟨u, U, S⟩ .parikhMatrix s).answer =
      .ok (.matrix U.size ((S.lts.spanningTree init.key).states.map
        ((S.lts.spanningTree init.key).vector U.events))) :=
  (Attempt.answer_bind_pure _ _ _).trans (congrArg (Except.map (Answer.matrix U.size))
    (hU.parikhRows_afresh.trans (System.parikhRows?_eq hS hi hU.order)))

theorem tellUtility_cycleMatrix (hU : U.InStep S) (hS : S.lts.Valid)
    (hi : S.initial? = .ok init) :
    (tellUtility ⟨u, U, S⟩ .cycleMatrix s).answer =
      .ok (.matrix U.size (((S.lts.spanningTree init.key).extraArcs S.lts).map
        ((S.lts.spanningTree init.key).cycleVector U.events))) :=
  (Attempt.answer_bind_pure _ _ _).trans (congrArg (Except.map (Answer.matrix U.size))
    (hU.cycleRows_afresh.trans (System.cycleRows?_eq hS hi hU.order)))

theorem tellUtility_writtenVectors (hU : U.InStep S) (hS : S.lts.Valid)
    (hi : S.initial? = .ok init) :
    (tellUtility ⟨u, U, S⟩ .cycleVectors s).answer =
      .ok (.arcVectors (S.writtenVectors init U.events)) :=
  (Attempt.answer_bind_pure _ _ _).trans
    (congrArg (Except.map Answer.arcVectors) (hU.writtenCycleVectors_answer hS hi))

end Queries

theorem sameVectors {U₁ U₂ : RegionUtility} (h : S₁.lts.SamePostsets S₂.lts init₁.key)
    (hS₁ : S₁.lts.Valid) (hS₂ : S₂.lts.Valid) (hi₁ : S₁.initial? = .ok init₁)
    (hi₂ : S₂.initial? = .ok init₂) (hstart : init₁.key = init₂.key) (hU₁ : U₁.InStep S₁)
    (hU₂ : U₂.InStep S₂) (hevents : U₁.events = U₂.events) :
    SameVectors s₁ s₂ ⟨u₁, U₁, S₁⟩ ⟨u₂, U₂, S₂⟩ (S₁.treeFrom init₁) (S₂.treeFrom init₂) S₁ init₁ := by
  have htree : S₁.lts.spanningTree init₁.key = S₂.lts.spanningTree init₂.key :=
    hstart ▸ h.spanningTree_eq hS₁ hS₂
  have hextra : (S₁.lts.spanningTree init₁.key).extraArcs S₁.lts =
      (S₂.lts.spanningTree init₂.key).extraArcs S₂.lts := hstart ▸ h.extraArcs_eq hS₁ hS₂
  have hsize : U₁.size = U₂.size := congrArg List.length hevents
  refine ⟨tellUtility_reachable hU₁ hi₁, tellUtility_reachable hU₂ hi₂, fun v hv => ?_, ?_, ?_, ?_⟩
  · refine ⟨_, tellUtility_reachingVector hU₁ hS₁ hi₁ hv, ?_⟩
    rw [htree, hevents]
    exact tellUtility_reachingVector hU₂ hS₂ hi₂ (hstart ▸ h.reach_iff.1 hv)
  · refine ⟨_, _, tellUtility_parikhMatrix hU₁ hS₁ hi₁, ?_⟩
    rw [htree, hevents, hsize]
    exact tellUtility_parikhMatrix hU₂ hS₂ hi₂
  · refine ⟨_, _, tellUtility_writtenVectors hU₁ hS₁ hi₁, tellUtility_writtenVectors hU₂ hS₂ hi₂, ?_⟩
    rw [System.map_key_writtenVectors hi₁, System.map_key_writtenVectors hi₂, hextra, htree, hevents]
  · refine ⟨_, _, tellUtility_cycleMatrix hU₁ hS₁ hi₁, ?_⟩
    rw [hextra, htree, hevents, hsize]
    exact tellUtility_cycleMatrix hU₂ hS₂ hi₂

/-! ## Regions -/

/-- Both regions are consistent or none is, and they have the same normal marking. If the same marking
was given to both, or none to either, the states that can be reached have the same markings too. -/
structure SameMarkings (w₁ w₂ : Bool) (s₁ s₂ : Session) (p₁ p₂ : PlacedRegion) (S : System)
    (init : Value) : Prop where
  consistent : ∃ b, (tellRegion w₁ p₁ .isConsistent s₁).answer = .ok (.truth b) ∧
    (tellRegion w₂ p₂ .isConsistent s₂).answer = .ok (.truth b)
  normal : ∃ n, (tellRegion w₁ p₁ .normalMarking s₁).answer = .ok (.number n) ∧
    (tellRegion w₂ p₂ .normalMarking s₂).answer = .ok (.number n)
  marking : p₁.holding.region.given = p₂.holding.region.given →
    ∀ v : Value, S.lts.Reach init.key v.key → ∃ k,
      (tellRegion w₁ p₁ (.markingOf v) s₁).answer = .ok (.number k) ∧
        (tellRegion w₂ p₂ (.markingOf v) s₂).answer = .ok (.number k)

theorem sameMarkings {U₁ U₂ : RegionUtility} (w₁ w₂ : Bool)
    (h : S₁.lts.SamePostsets S₂.lts init₁.key) (hs₁ : s₁.Settled u₁ S₁ U₁)
    (hs₂ : s₂.Settled u₂ S₂ U₂) (hS₁ : S₁.lts.Valid) (hS₂ : S₂.lts.Valid)
    (hi₁ : S₁.initial? = .ok init₁) (hi₂ : S₂.initial? = .ok init₂)
    (hstart : init₁.key = init₂.key) (hp₁ : s₁.region? r₁ = some p₁)
    (hp₂ : s₂.region? r₂ = some p₂) (hu₁ : p₁.holding.region.utility = u₁)
    (hu₂ : p₂.holding.region.utility = u₂)
    (hevents : p₁.holding.utility.events = p₂.holding.utility.events)
    (hweights : p₁.holding.region.weights = p₂.holding.region.weights) :
    SameMarkings w₁ w₂ s₁ s₂ p₁ p₂ S₁ init₁ := by
  obtain ⟨b₁, m₁, n₁, h₁⟩ := hs₁.answers w₁ hS₁ hi₁ hp₁ hu₁
  obtain ⟨b₂, m₂, n₂, h₂⟩ := hs₂.answers w₂ hS₂ hi₂ hp₂ hu₂
  have htree : S₁.lts.spanningTree init₁.key = S₂.lts.spanningTree init₂.key :=
    hstart ▸ h.spanningTree_eq hS₁ hS₂
  have hpotential : p₁.potential S₁ init₁ = p₂.potential S₂ init₂ := by
    rw [PlacedRegion.potential, PlacedRegion.potential, Lts.treePotential, Lts.treePotential, htree,
      hevents, hweights]
  have hnet : p₁.net = p₂.net := by rw [PlacedRegion.net, PlacedRegion.net, hevents, hweights]
  have hreach : ∀ k, S₁.lts.Reach init₁.key k ↔ S₂.lts.Reach init₂.key k := fun k => by
    rw [← hstart]
    exact h.reach_iff
  have hconsistent : b₂ = b₁ := by
    rw [Bool.eq_iff_iff, h₂.consistent_iff, h₁.consistent_iff, ← hpotential, ← hnet, ← hstart]
    exact h.potential_iff.symm
  have hnormal : n₂ = n₁ := (h₁.normal_eq h₂ hreach fun _ _ => congrFun hpotential _).symm
  subst hconsistent hnormal
  refine ⟨⟨b₂, h₁.consistent, h₂.consistent⟩, ⟨n₂, h₁.normal, h₂.normal⟩, fun hgiven v hv => ?_⟩
  refine ⟨_, h₁.marking v hv, ?_⟩
  rw [h₁.given, hgiven, ← h₂.given, hpotential]
  exact h₂.marking v ((hreach _).1 hv)

/-- Two systems with the same initial state and the same arcs out of every state that can be reached,
in the same order, whatever they have besides, and a utility of each with the same order of the
events: the spanning trees are the same, and so are the extra arcs, the cycle basis and the vectors;
regions with the same weights are both consistent or both not and have the same markings. -/
theorem reachable_part_decides (w₁ w₂ : Bool) (hs₁ : s₁.Steady u₁ S₁) (hs₂ : s₂.Steady u₂ S₂)
    (hi₁ : S₁.initial? = .ok init₁) (hi₂ : S₂.initial? = .ok init₂)
    (hstart : init₁.key = init₂.key)
    (hpost : ∀ v : Value, S₁.lts.Reach init₁.key v.key →
      (S₁.postset? v).map (List.map (Arc.map Value.key)) =
        (S₂.postset? v).map (List.map (Arc.map Value.key)))
    (hq₁ : s₁.utility? u₁ = some q₁) (hq₂ : s₂.utility? u₂ = some q₂)
    (hevents : q₁.utility.events = q₂.utility.events) :
    ∃ t₁ t₂, S₁.spanningTree? = .ok t₁ ∧ S₂.spanningTree? = .ok t₂ ∧ SameTrees t₁ S₁ t₂ S₂ ∧
      SameVectors s₁ s₂ q₁ q₂ t₁ t₂ S₁ init₁ ∧
      ∀ r₁ r₂ p₁ p₂, s₁.region? r₁ = some p₁ → s₂.region? r₂ = some p₂ →
        p₁.holding.region.utility = u₁ → p₂.holding.region.utility = u₂ →
        p₁.holding.region.weights = p₂.holding.region.weights →
        SameMarkings w₁ w₂ s₁ s₂ p₁ p₂ S₁ init₁ := by
  obtain ⟨U₁, hU₁⟩ := hs₁.settled
  obtain ⟨U₂, hU₂⟩ := hs₂.settled
  obtain rfl : q₁ = ⟨u₁, U₁, S₁⟩ := Option.some.inj (hq₁.symm.trans hU₁.placed)
  obtain rfl : q₂ = ⟨u₂, U₂, S₂⟩ := Option.some.inj (hq₂.symm.trans hU₂.placed)
  have hsame := System.samePostsets hs₁.valid hi₁ hpost
  refine ⟨S₁.treeFrom init₁, S₂.treeFrom init₂, System.spanningTree?_of_initial hi₁,
    System.spanningTree?_of_initial hi₂,
    System.sameTrees hsame hs₁.valid hs₂.valid hi₁ hi₂ hstart,
    sameVectors hsame hs₁.valid hs₂.valid hi₁ hi₂ hstart hU₁.kept hU₂.kept hevents,
    fun r₁ r₂ p₁ p₂ hp₁ hp₂ hu₁ hu₂ hweights => ?_⟩
  have howner₁ : p₁.holding.utility = U₁ :=
    (hU₁.eq_of_placed (region?_eq_some_iff.1 hp₁).2.2 hu₁).1
  have howner₂ : p₂.holding.utility = U₂ :=
    (hU₂.eq_of_placed (region?_eq_some_iff.1 hp₂).2.2 hu₂).1
  refine sameMarkings w₁ w₂ hsame hU₁ hU₂ hs₁.valid hs₂.valid hi₁ hi₂ hstart hp₁ hp₂ hu₁ hu₂ ?_
    hweights
  rw [howner₁, howner₂]
  exact hevents

/-! ## The ring with other unreachable states -/

/-- The ring, its arcs added in another order, with two states that cannot be reached instead of one
and an arc from one to the other. -/
def frayedSystem : System where
  name := "frayed"
  written :=
    { states := [.text "s0", .text "s2", .text "s5", .text "s6", .text "s1"]
      arcs := [⟨.text "s2", .text "s0", "a"⟩, ⟨.text "s5", .text "s6", "c"⟩,
        ⟨.text "s1", .text "s2", "b"⟩, ⟨.text "s6", .text "s1", "a"⟩,
        ⟨.text "s1", .text "s1", "c"⟩, ⟨.text "s0", .text "s1", "a"⟩]
      initial := some (.text "s0") }
  alphabet := ["a", "c", "b"]
  alphabet_eq := rfl

def frayedMade : Session := (step false (.systemOfArcs
  [(.text "s2", .text "a", .text "s0"), (.text "s5", .text "c", .text "s6"),
    (.text "s1", .text "b", .text "s2"), (.text "s6", .text "a", .text "s1"),
    (.text "s1", .text "c", .text "s1"), (.text "s0", .text "a", .text "s1")] (.text "s0") "frayed"
    (some "lts")) {}).2

/-- The session of that system has a utility with the events of the ring and a region with the weights
of the one of the ring. -/
def frayedSession : Session := (step false
  (.newRegion "utility" [.integer 0, .integer 2, .integer 0] [.integer 1, .integer 0, .integer 0]
    .null (some "region"))
  (step false (.newUtility "lts" (some ["a", "b", "c"]) (some "utility")) frayedMade).2).2

def frayedUtility : PlacedUtility := ⟨0, ⟨0, ["a", "b", "c"], none, none, none⟩, frayedSystem⟩

theorem steady_frayedSession : frayedSession.Steady 0 frayedSystem := by
  have hmade : frayedMade.Reached := .step false _ .empty
  exact .step false _ (.made false "lts" (some ["a", "b", "c"]) (some "utility") hmade rfl rfl) rfl

theorem postset?_frayed (v : Value) (hv : ringSystem.lts.Reach (Value.text "s0").key v.key) :
    (ringSystem.postset? v).map (List.map (Arc.map Value.key)) =
      (frayedSystem.postset? v).map (List.map (Arc.map Value.key)) := by
  have hring : v.key ∈ [(Value.text "s0").key, (Value.text "s1").key, (Value.text "s2").key] :=
    Lts.reach_iff_forall_closed.1 hv (· ∈ _) (by decide) (by decide)
  have hsame : ∀ k ∈ [(Value.text "s0").key, (Value.text "s1").key, (Value.text "s2").key],
      k ∈ ringSystem.lts.states ∧ k ∈ frayedSystem.lts.states ∧
        ringSystem.lts.postset k = frayedSystem.lts.postset k := by decide
  obtain ⟨hhas₁, hhas₂, hpost⟩ := hsame _ hring
  rw [System.postset?_of_has hhas₁, System.postset?_of_has hhas₂, Except.map, Except.map,
    System.map_key_postsetOf, System.map_key_postsetOf, hpost]

theorem reachable_part_decides_ring :
    ringSession.Steady 0 ringSystem ∧ frayedSession.Steady 0 frayedSystem ∧
      ringSession.utility? 0 = some ringUtility ∧ frayedSession.utility? 0 = some frayedUtility ∧
      ∃ t₁ t₂, ringSystem.spanningTree? = .ok t₁ ∧ frayedSystem.spanningTree? = .ok t₂ ∧
        SameTrees t₁ ringSystem t₂ frayedSystem ∧
        SameVectors ringSession frayedSession ringUtility frayedUtility t₁ t₂ ringSystem
          (.text "s0") ∧
        ∀ r₁ r₂ p₁ p₂, ringSession.region? r₁ = some p₁ → frayedSession.region? r₂ = some p₂ →
          p₁.holding.region.utility = 0 → p₂.holding.region.utility = 0 →
          p₁.holding.region.weights = p₂.holding.region.weights →
          SameMarkings false false ringSession frayedSession p₁ p₂ ringSystem (.text "s0") :=
  ⟨steady_ringSession, steady_frayedSession, rfl, rfl,
    reachable_part_decides false false steady_ringSession steady_frayedSession rfl rfl rfl
      postset?_frayed rfl rfl rfl⟩

end Session

end RegionCalculus
