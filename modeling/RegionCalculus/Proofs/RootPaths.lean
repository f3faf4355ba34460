import RegionCalculus.Proofs.CommonAncestors
import RegionCalculus.Proofs.ReachablePart

/-!
# Root paths and their Parikh vectors

A path to a state is found by climbing along parent arcs; the table of Parikh vectors is filled in the
other direction, each vector from that of the parent. Both speak of the same arcs.

* `Tree.Ascends t s as`: the climb from `s` passes the arcs `as` and ends at a state without a parent.
* `Tree.Grown.ascends_iff`: it passes the arcs of the root path, the last one first.
* `sum_labelCount`: the counts of all events add up to the number of arcs.
* `WrittenTree.PathTo t S init v path`: `path` is answered for the path to `v`, and is a run there from
  the initial state that repeats no state.
* `Session.reachingVector_counts_path`: the vectors of a utility count the labels on such paths.
-/

namespace RegionCalculus
set_option autoImplicit false

variable {ι : Type}

/-! ## Counts on paths -/

theorem labelCount_map {κ : Type} (f : ι → κ) (as : List (Arc ι)) (e : String) :
    labelCount (as.map (Arc.map f)) e = labelCount as e := by
  rw [labelCount, labelCount, List.map_map]
  rfl

/-- If the events are distinct and name all labels, their counts add up to the number of arcs. -/
theorem sum_labelCount {events : List String} (hn : events.Nodup) {as : List (Arc ι)}
    (hl : ∀ a ∈ as, a.label ∈ events) : (events.map (labelCount as)).sum = as.length := by
  have hlabels : ∀ e ∈ (as.map Arc.label : Multiset String), e ∈ events.toFinset := by
    intro e he
    obtain ⟨a, ha, rfl⟩ := List.mem_map.1 (Multiset.mem_coe.1 he)
    exact List.mem_toFinset.2 (hl a ha)
  calc (events.map (labelCount as)).sum
    _ = ∑ e ∈ events.toFinset, labelCount as e := (List.sum_toFinset _ hn).symm
    _ = ((∑ e ∈ events.toFinset, (as.map Arc.label : Multiset String).count e : Nat) : Int) := by
      rw [Nat.cast_sum]
      exact Finset.sum_congr rfl fun e _ => by rw [Multiset.coe_count, labelCount]
    _ = as.length := by
      rw [Multiset.sum_count_eq_card hlabels, Multiset.coe_card, List.length_map]

namespace Tree

variable [DecidableEq ι] {t : Tree ι} {s : ι} {as bs : List (Arc ι)}

/-! ## Climbing to the root -/

/-- From `s` the climb follows parent arcs, and ends at a state that has none. -/
inductive Ascends (t : Tree ι) : ι → List (Arc ι) → Prop
  | stop {s : ι} : t.parentArc s = none → Ascends t s []
  | step {s : ι} {a : Arc ι} {as : List (Arc ι)} :
      t.parentArc s = some a → Ascends t a.source as → Ascends t s (a :: as)

theorem Ascends.unique (h : t.Ascends s as) (h' : t.Ascends s bs) : as = bs := by
  induction h generalizing bs with
  | stop hnone =>
    cases h' with
    | stop _ => rfl
    | step hsome _ => cases hnone.symm.trans hsome
  | step hsome _ ih =>
    cases h' with
    | stop hnone => cases hnone.symm.trans hsome
    | step hsome' hrest =>
      obtain rfl := Option.some.inj (hsome.symm.trans hsome')
      rw [ih hrest]

namespace Grown

theorem ascends_rootPath (ht : t.Grown) : ∀ s ∈ t.states, t.Ascends s (t.rootPath s).reverse := by
  refine ht.states_induction ?_ fun a ha ih => ?_
  · rw [ht.rootPath_root]
    exact .stop ht.parentArc_root
  · rw [ht.rootPath_target ha, List.reverse_append]
    exact .step (ht.parentArc_eq_some_iff.2 ⟨ha, rfl⟩) ih

/-- The climb ends, and in one way. -/
theorem ascends_iff (ht : t.Grown) (hs : s ∈ t.states) :
    t.Ascends s as ↔ as = (t.rootPath s).reverse := by
  constructor
  · exact fun h => h.unique (ht.ascends_rootPath s hs)
  · rintro rfl
    exact ht.ascends_rootPath s hs

/-- No state stands twice on the way to a state: each is less deep than the next. -/
theorem nodup_way (ht : t.Grown) : ∀ s ∈ t.states, (t.way s).Nodup := by
  refine ht.states_induction ?_ fun a ha ih => ?_
  · simp [way, ht.rootPath_root]
  · rw [ht.way_target ha]
    refine ih.append (List.nodup_singleton _) (List.disjoint_singleton.2 fun hmem => ?_)
    have hdepth := ht.depth_target ha
    rcases ht.eq_or_depth_lt a.source (ht.source_mem ha) a.target hmem with heq | hlt
    · rw [heq] at hdepth
      omega
    · omega

theorem length_rootPath (ht : t.Grown) (hs : s ∈ t.states) : (t.rootPath s).length = t.depth s := by
  have hrun : t.lts.Run t.root (t.rootPath s) s := ht.run_rootPath (fun _ ha => ha) s hs
  rw [ht.depth_of_run hrun, ht.depth_root, Nat.zero_add]

end Grown

end Tree

/-! ## Answered paths -/

namespace WrittenTree

/-- `path` is answered for the path to `v`. The climb along parent arcs passes its arcs from the last
one to the first. It is a run of the system from the initial state to `v` that repeats no state, and as
long as `v` is deep. -/
structure PathTo (t : WrittenTree) (S : System) (init v : Value) (path : List (Arc Value)) :
    Prop where
  answer : t.rootPath? v = .ok path
  climb : ∀ as, t.tree.Ascends v.key as ↔ as = (path.map (Arc.map Value.key)).reverse
  run : S.lts.Run init.key (path.map (Arc.map Value.key)) v.key
  nodup : (init.key :: path.map fun a => a.target.key).Nodup
  depth : t.depth? v = .ok path.length

end WrittenTree

namespace System

variable {S : System} {init v : Value}

/-- The path to a state, as the spanning tree answers it. -/
def writtenPath (S : System) (init v : Value) : List (Arc Value) :=
  ((S.lts.spanningTree init.key).rootPath v.key).map (S.treeFrom init).arcForm

theorem map_key_writtenPath (hS : S.lts.Valid) (hi : S.initial? = .ok init)
    (hv : S.lts.Reach init.key v.key) :
    (S.writtenPath init v).map (Arc.map Value.key) =
      (S.lts.spanningTree init.key).rootPath v.key :=
  WrittenTree.map_key_map_arcForm (grown_treeFrom hS init) (map_key_treeFrom hi)
    ((grown_treeFrom hS init).rootPath_subset v.key ((Lts.mem_states_spanningTree hS).2 hv))

theorem pathTo_writtenPath (hS : S.lts.Valid) (hi : S.initial? = .ok init)
    (hv : S.lts.Reach init.key v.key) :
    (S.treeFrom init).PathTo S init v (S.writtenPath init v) := by
  have hgrown := Lts.grown_spanningTree hS init.key
  have hmem := (Lts.mem_states_spanningTree hS).2 hv
  have hkeys := map_key_writtenPath hS hi hv
  have hlength : (S.writtenPath init v).length = (S.lts.spanningTree init.key).depth v.key := by
    rw [writtenPath, List.length_map, hgrown.length_rootPath hmem]
  refine ⟨WrittenTree.rootPath?_of_mem hmem, fun as => ?_, ?_, ?_, ?_⟩
  · rw [hkeys]
    exact hgrown.ascends_iff hmem
  · rw [hkeys]
    exact hgrown.run_rootPath (fun _ ha => Lts.mem_arcs_of_mem_spanningTree ha) v.key hmem
  · have htargets : (S.writtenPath init v).map (fun a => a.target.key) =
        ((S.lts.spanningTree init.key).rootPath v.key).map Arc.target := by
      rw [← hkeys, List.map_map]
      rfl
    rw [htargets]
    exact hgrown.nodup_way v.key hmem
  · rw [hlength]
    exact WrittenTree.depth?_of_mem hmem

theorem vector_eq (hS : S.lts.Valid) (hi : S.initial? = .ok init) (events : List String)
    (hv : S.lts.Reach init.key v.key) :
    (S.lts.spanningTree init.key).vector events v.key =
      events.map (labelCount (S.writtenPath init v)) := by
  rw [Tree.vector, ← map_key_writtenPath hS hi hv]
  exact List.map_congr_left fun e _ => labelCount_map Value.key _ e

end System

namespace Session

variable {u : UtilityId} {S : System} {s : Session} {p : PlacedUtility} {init : Value}

/-- The table of a utility is filled without a lookup that fails. Its vector for a state that can be
reached counts, for each event, the arcs with this label on the path to the state. -/
theorem reachingVector_counts_path (hs : s.Steady u S) (hi : S.initial? = .ok init)
    (hp : s.utility? u = some p) :
    ∃ t table, S.spanningTree? = .ok t ∧ (RegionUtility.spanningTree S p.utility).answer = .ok t ∧
      t.tree.parikhTable? p.utility.events = .ok table ∧
      (RegionUtility.parikhVectors S p.utility).answer = .ok table ∧
      ∀ v : Value, S.lts.Reach init.key v.key → ∃ vector path,
        (tellUtility p (.reachingVector v) s).answer = .ok (.numbers vector) ∧
        table.lookup v.key = some vector ∧ t.PathTo S init v path ∧
        vector.length = p.utility.events.length ∧
        (∀ (i : Nat) (e : String), p.utility.events[i]? = some e →
          vector[i]? = some (labelCount path e)) ∧
        vector.sum = path.length := by
  obtain ⟨U, hU⟩ := hs.settled
  obtain rfl : p = ⟨u, U, S⟩ := Option.some.inj (hp.symm.trans hU.placed)
  have htree := System.spanningTree?_of_initial hi
  refine ⟨S.treeFrom init, S.lts.vectorTable init.key U.events, htree,
    hU.kept.spanningTree_answer.trans htree,
    Lts.parikhTable?_spanningTree hs.valid hU.kept.order init.key,
    hU.kept.parikhVectors_answer.trans (System.vectors?_eq hs.valid hi hU.kept.order),
    fun v hv => ?_⟩
  have hvector := System.vector_eq hs.valid hi U.events hv
  refine ⟨_, S.writtenPath init v, tellUtility_reachingVector hU.kept hs.valid hi hv,
    Lts.lookup_vectorTable hs.valid U.events hv, System.pathTo_writtenPath hs.valid hi hv,
    Tree.length_vector _ _ _, fun i e he => ?_, ?_⟩
  · rw [hvector, List.getElem?_map, he, Option.map_some]
  · have hlabels : ∀ a ∈ (S.lts.spanningTree init.key).rootPath v.key, a.label ∈ U.events := by
      intro a ha
      have hmem := (Lts.mem_states_spanningTree hs.valid).2 hv
      have harc := (Lts.grown_spanningTree hs.valid init.key).rootPath_subset v.key hmem a ha
      exact hU.kept.order.label_mem a (Lts.mem_arcs_of_mem_spanningTree harc)
    rw [Tree.vector, sum_labelCount hU.kept.order.nodup hlabels, System.writtenPath, List.length_map]

theorem reachingVector_counts_path_ring :
    ringSession.Steady 0 ringSystem ∧ ringSystem.initial? = .ok (.text "s0") ∧
      ringSession.utility? 0 = some ringUtility ∧
      ∃ t table, ringSystem.spanningTree? = .ok t ∧
        (RegionUtility.spanningTree ringSystem ringUtility.utility).answer = .ok t ∧
        t.tree.parikhTable? ["a", "b", "c"] = .ok table ∧
        (RegionUtility.parikhVectors ringSystem ringUtility.utility).answer = .ok table ∧
        ∀ v : Value, ringSystem.lts.Reach (Value.text "s0").key v.key → ∃ vector path,
          (tellUtility ringUtility (.reachingVector v) ringSession).answer =
            .ok (.numbers vector) ∧
          table.lookup v.key = some vector ∧ t.PathTo ringSystem (.text "s0") v path ∧
          vector.length = 3 ∧
          (∀ (i : Nat) (e : String), ["a", "b", "c"][i]? = some e →
            vector[i]? = some (labelCount path e)) ∧
          vector.sum = path.length :=
  ⟨steady_ringSession, rfl, rfl, reachingVector_counts_path steady_ringSession rfl rfl⟩

end Session

end RegionCalculus
