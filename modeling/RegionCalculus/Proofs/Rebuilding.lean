import RegionCalculus.Proofs.GivenArcs

/-!
# Rebuilding a system from its arcs

Arcs are answered in groups: those of a source stand together, among them those to a target. Arcs that
are grouped already stay as they are when they are grouped once more. So a system that is made anew of
the answered arcs of another answers the same arcs out of every state, and a search goes the same way in
both, although states, labels and incoming arcs may stand in another order.

* `groupBy f l`: the members of `l` in groups by their images; `groupBy_groupBy`: grouping twice.
* `Lts.postset_of_grouped`: the arcs out of a state are the same if the arcs were added in groups.
* `System.targetForm_of_arcs`: they are written with the same targets too.
* `System.Rebuilt S init S'`: `S'` has the arcs of `S` and no other states than it takes for them.
* `System.ofArcs_rebuilds`: the system that is made of the arcs of another is that one rebuilt.
-/

namespace RegionCalculus
set_option autoImplicit false

/-! ## Groups -/

section Groups

variable {α β : Type} [DecidableEq α] {f : β → α} {g : α → List β} {l : List α}

theorem distinct_append (l m : List α) :
    distinct (l ++ m) = distinct l ++ (distinct m).filter (· ∉ l) := by
  induction l with
  | nil => simp
  | cons a l ih =>
    rw [List.cons_append, distinct_cons, ih, distinct_cons, List.filter_append, List.filter_filter,
      List.cons_append]
    simp only [List.mem_cons, not_or, Bool.decide_and]

theorem distinct_eq_singleton {a : α} (hne : l ≠ []) (h : ∀ b ∈ l, b = a) : distinct l = [a] := by
  cases l with
  | nil => exact absurd rfl hne
  | cons b l =>
    obtain ⟨rfl, hrest⟩ := List.forall_mem_cons.1 h
    have hnone : (distinct l).filter (· ≠ b) = [] := by
      refine List.filter_eq_nil_iff.2 fun c hc => ?_
      simpa using hrest c (mem_distinct.1 hc)
    rw [distinct_cons, hnone]

/-- The images of lists of groups, one list for each member of `l`, are `l`. -/
theorem distinct_map_flatMap (hl : l.Nodup) (hne : ∀ v ∈ l, g v ≠ [])
    (himage : ∀ v ∈ l, ∀ x ∈ g v, f x = v) : distinct ((l.flatMap g).map f) = l := by
  induction l with
  | nil => rfl
  | cons v l ih =>
    obtain ⟨hnew, hrest⟩ := List.nodup_cons.1 hl
    obtain ⟨hv, hothers⟩ := List.forall_mem_cons.1 himage
    obtain ⟨hne, hnes⟩ := List.forall_mem_cons.1 hne
    have hfirst : distinct ((g v).map f) = [v] :=
      distinct_eq_singleton (by simpa using hne) (List.forall_mem_map.2 hv)
    have hkept : l.filter (· ∉ (g v).map f) = l := by
      refine List.filter_eq_self.2 fun w hw => ?_
      rw [decide_eq_true_eq]
      intro hmem
      obtain ⟨x, hx, rfl⟩ := List.mem_map.1 hmem
      exact hnew (hv x hx ▸ hw)
    rw [List.flatMap_cons, List.map_append, distinct_append, hfirst, ih hrest hnes hothers, hkept]
    rfl

/-- Of lists of groups, one image picks its own. -/
theorem filter_flatMap_eq (hl : l.Nodup) (himage : ∀ v ∈ l, ∀ x ∈ g v, f x = v) {v : α}
    (hv : v ∈ l) : (l.flatMap g).filter (f · = v) = g v := by
  induction l with
  | nil => cases hv
  | cons w l ih =>
    obtain ⟨hnew, hrest⟩ := List.nodup_cons.1 hl
    obtain ⟨hw, hothers⟩ := List.forall_mem_cons.1 himage
    rw [List.flatMap_cons, List.filter_append]
    rcases List.mem_cons.1 hv with rfl | hv
    · have hown : (g v).filter (f · = v) = g v :=
        List.filter_eq_self.2 fun x hx => by simpa using hw x hx
      have hnone : (l.flatMap g).filter (f · = v) = [] := by
        refine List.filter_eq_nil_iff.2 fun x hx hsame => ?_
        obtain ⟨u, hu, hx⟩ := List.mem_flatMap.1 hx
        have hv : u = v := (hothers u hu x hx).symm.trans (of_decide_eq_true hsame)
        exact hnew (hv ▸ hu)
      rw [hown, hnone, List.append_nil]
    · have hnone : (g w).filter (f · = v) = [] := by
        refine List.filter_eq_nil_iff.2 fun x hx hsame => ?_
        have hw : w = v := (hw x hx).symm.trans (of_decide_eq_true hsame)
        exact hnew (hw ▸ hv)
      rw [hnone, List.nil_append]
      exact ih hrest hothers hv

/-- The members in groups of the same image, in the order of the first member of each. -/
def groupBy (f : β → α) (l : List β) : List β :=
  (distinct (l.map f)).flatMap fun v => l.filter (f · = v)

theorem groupBy_groupBy (f : β → α) (l : List β) : groupBy f (groupBy f l) = groupBy f l := by
  have hnodup := nodup_distinct (l.map f)
  have hne : ∀ v ∈ distinct (l.map f), l.filter (f · = v) ≠ [] := by
    intro v hv
    obtain ⟨x, hx, rfl⟩ := List.mem_map.1 (mem_distinct.1 hv)
    exact List.ne_nil_of_mem (List.mem_filter.2 ⟨hx, decide_eq_true rfl⟩)
  have himage : ∀ v ∈ distinct (l.map f), ∀ x ∈ l.filter (f · = v), f x = v := fun v _ x hx =>
    of_decide_eq_true (List.mem_filter.1 hx).2
  have hgroups : distinct ((groupBy f l).map f) = distinct (l.map f) :=
    distinct_map_flatMap hnodup hne himage
  rw [groupBy, hgroups]
  exact List.flatMap_congr fun v hv => filter_flatMap_eq hnodup himage hv

end Groups

/-! ## Arcs that were added in groups -/

namespace Lts

variable {ι : Type} [DecidableEq ι] {G H : Lts ι}

theorem postset_eq_groupBy (G : Lts ι) (u : ι) :
    G.postset u = groupBy Arc.target (G.arcs.filter (·.source = u)) := by
  refine List.flatMap_congr fun v _ => ?_
  rw [parallel, List.filter_filter]
  refine List.filter_congr fun a _ => ?_
  rw [Bool.decide_and, Bool.and_comm]

theorem filter_grouped (hG : G.Valid) (u : ι) : G.grouped.filter (·.source = u) = G.postset u := by
  by_cases hu : u ∈ G.states
  · exact filter_flatMap_eq hG.nodup_states (fun v _ a ha => (mem_postset.1 ha).2) hu
  · have hclosed : ∀ a ∈ G.arcs, a.source ≠ u := fun a ha hsource =>
      hu (hsource ▸ (hG.closed a ha).1)
    have hpostset : G.postset u = [] := List.eq_nil_iff_forall_not_mem.2 fun a ha =>
      hclosed a (mem_postset.1 ha).1 (mem_postset.1 ha).2
    rw [hpostset]
    refine List.filter_eq_nil_iff.2 fun a ha => ?_
    simpa using hclosed a ((mem_grouped hG.closed).1 ha)

/-- The grouping by source leaves the arcs of one source grouped by target, so that nothing is left to
group. -/
theorem postset_of_grouped (hG : G.Valid) (harcs : H.arcs = G.grouped) (u : ι) :
    H.postset u = G.postset u := by
  rw [postset_eq_groupBy H, harcs, filter_grouped hG, postset_eq_groupBy, groupBy_groupBy]

theorem samePostsets_of_grouped (hG : G.Valid) (harcs : H.arcs = G.grouped) (root : ι) :
    G.SamePostsets H root := fun u _ => (postset_of_grouped hG harcs u).symm

end Lts

/-! ## The arcs as they are written -/

namespace System

variable {S S' : System} {init : Value} {name : String}

theorem targetForm_congr {a b : Arc Key} (hsource : a.source = b.source)
    (htarget : a.target = b.target) : S.targetForm a = S.targetForm b := by
  rw [targetForm, targetForm, hsource, htarget]

theorem target_of_mem_arcs {b : Arc Value} (hb : b ∈ S.arcs) :
    b.target = S.targetForm (b.map Value.key) := by
  obtain ⟨v, _, hpost⟩ := List.mem_flatMap.1 hb
  obtain ⟨a, ha, rfl⟩ := List.mem_map.1 hpost
  obtain ⟨harc, hsource⟩ := Lts.mem_postset.1 ha
  exact targetForm_congr hsource (key_targetForm harc).symm

/-- An arc is found among the answered arcs with the target with which it is answered. -/
theorem targetForm_of_arcs (harcs : S'.written.arcs = S.arcs) {a : Arc Key} (ha : a ∈ S'.lts.arcs) :
    S'.targetForm a = S.targetForm a := by
  obtain ⟨b, hfirst, hsource, htarget⟩ := exists_firstArc ha
  have hb : b ∈ S.arcs := harcs ▸ List.mem_of_find?_eq_some hfirst
  have hform : S'.targetForm a = b.target := by
    rw [targetForm, hfirst]
    rfl
  rw [hform, target_of_mem_arcs hb]
  exact targetForm_congr hsource htarget

/-! ## What a rebuilt system answers -/

/-- `S'` starts at the same state as `S` and has the same arcs and labels, no states but the endpoints
of arcs and the one to start at, and the same arcs out of each of them. The spanning tree is the same,
and so are the extra arcs and the cycles. -/
structure Rebuilt (S : System) (init : Value) (S' : System) : Prop where
  initial : S'.initial? = .ok init
  arcs : ∀ a, a ∈ S'.arcs.map (Arc.map Value.key) ↔ a ∈ S.arcs.map (Arc.map Value.key)
  labels : ∀ e, e ∈ S'.alphabet ↔ e ∈ S.alphabet
  states : ∀ k, k ∈ S'.written.states.map Value.key ↔
    k = init.key ∨ ∃ a ∈ S.arcs.map (Arc.map Value.key), k = a.source ∨ k = a.target
  postset : ∀ v, S'.Has v → ∃ out, S'.postset? v = .ok out ∧ S.postset? v = .ok out
  tree : ∃ t, S.spanningTree? = .ok t ∧ S'.spanningTree? = .ok t ∧
    (∃ extra, t.extraArcs? S = .ok extra ∧ t.extraArcs? S' = .ok extra) ∧
    ∃ cycles, t.fundamentalCycles? S = .ok cycles ∧ t.fundamentalCycles? S' = .ok cycles

/-- The arcs that a valid system answers are given to another one as they are. -/
theorem LaidOut.written_arcs {start : Option Value} {ids : List Value} (hS : S.lts.Valid)
    (h : S'.LaidOut name start ids S.arcs) : S'.written.arcs = S.arcs := by
  have hnodup : (S.arcs.map (Arc.map Value.key)).Nodup := by
    rw [map_key_arcs]
    exact Lts.nodup_grouped hS
  exact h.arcs.trans (distinctBy_eq_self hnodup)

section Same

variable (harcs : S'.written.arcs = S.arcs)

include harcs

theorem lts_arcs_of_arcs : S'.lts.arcs = S.lts.grouped := by rw [lts_arcs, harcs, map_key_arcs]

variable (hS : S.lts.Valid)

include hS

theorem mem_lts_arcs_of_arcs {a : Arc Key} : a ∈ S'.lts.arcs ↔ a ∈ S.lts.arcs := by
  rw [lts_arcs_of_arcs harcs]
  exact Lts.mem_grouped hS.closed

theorem targetForm_eq_of_arcs {a : Arc Key} (ha : a ∈ S.lts.arcs) :
    S'.targetForm a = S.targetForm a :=
  targetForm_of_arcs harcs ((mem_lts_arcs_of_arcs harcs hS).2 ha)

theorem postsetOf_of_arcs (v : Value) : S'.postsetOf v = S.postsetOf v := by
  rw [postsetOf, postsetOf, Lts.postset_of_grouped hS (lts_arcs_of_arcs harcs)]
  refine List.map_congr_left fun a ha => ?_
  rw [targetForm_eq_of_arcs harcs hS (Lts.mem_postset.1 ha).1]

theorem extraForm_of_arcs (t : WrittenTree) {a : Arc Key} (ha : a ∈ S.lts.arcs) :
    t.extraForm S' a = t.extraForm S a := by
  rw [WrittenTree.extraForm, WrittenTree.extraForm, targetForm_eq_of_arcs harcs hS ha]

theorem cycleArcForm_of_arcs (t : WrittenTree) {a : Arc Key} (ha : a ∈ S.lts.arcs) :
    t.cycleArcForm S' a = t.cycleArcForm S a := by
  rw [WrittenTree.cycleArcForm, WrittenTree.cycleArcForm, extraForm_of_arcs harcs hS t ha]

variable (hS' : S'.lts.Valid)

include hS'

theorem spanningTree_of_arcs (root : Key) : S'.lts.spanningTree root = S.lts.spanningTree root := by
  have hsame := Lts.samePostsets_of_grouped hS (lts_arcs_of_arcs harcs) root
  exact (hsame.spanningTree_eq hS hS').symm

theorem extraArcs_of_arcs (root : Key) :
    (S.lts.spanningTree root).extraArcs S'.lts = (S.lts.spanningTree root).extraArcs S.lts := by
  have hsame := Lts.samePostsets_of_grouped hS (lts_arcs_of_arcs harcs) root
  rw [hsame.extraArcs_eq hS hS', spanningTree_of_arcs harcs hS hS']

theorem treeFrom_of_arcs (init : Value) : S'.treeFrom init = S.treeFrom init := by
  rw [treeFrom, treeFrom, spanningTree_of_arcs harcs hS hS']
  congr 2
  exact List.map_congr_left fun a ha =>
    targetForm_eq_of_arcs harcs hS (Lts.mem_arcs_of_mem_spanningTree ha)

theorem writtenCycles_of_arcs (init : Value) : S'.writtenCycles init = S.writtenCycles init := by
  rw [writtenCycles, writtenCycles, treeFrom_of_arcs harcs hS hS', spanningTree_of_arcs harcs hS hS',
    extraArcs_of_arcs harcs hS hS']
  refine List.map_congr_left fun a ha => ?_
  obtain ⟨harc, hreach, _⟩ := (Lts.mem_extraArcs_spanningTree hS).1 ha
  -- The extra arc and the tree arcs of its cycle are arcs of `S`, so both systems write them alike.
  have hcycle : ∀ b ∈ (S.lts.spanningTree init.key).sortArcs
      (a :: (S.lts.spanningTree init.key).treePath a.source a.target), b ∈ S.lts.arcs := by
    intro b hb
    rcases List.mem_cons.1 (List.mem_mergeSort.1 hb) with rfl | hb
    · exact harc
    · exact Lts.mem_arcs_of_mem_spanningTree ((Lts.grown_spanningTree hS init.key).treePath_subset
        ((Lts.mem_states_spanningTree hS).2 hreach) (Lts.ends_of_mem_extraArcs hS ha) b hb)
  rw [extraForm_of_arcs harcs hS _ harc,
    List.map_congr_left fun b hb => cycleArcForm_of_arcs harcs hS _ (hcycle b hb)]

theorem extraArcs?_of_arcs (hi : S.initial? = .ok init) (hi' : S'.initial? = .ok init) :
    (S.treeFrom init).extraArcs? S' = (S.treeFrom init).extraArcs? S := by
  have hextra := extraArcs?_treeFrom hS' hi'
  rw [treeFrom_of_arcs harcs hS hS', spanningTree_of_arcs harcs hS hS',
    extraArcs_of_arcs harcs hS hS'] at hextra
  rw [hextra, extraArcs?_treeFrom hS hi]
  refine congrArg Except.ok (List.map_congr_left fun a ha => ?_)
  exact extraForm_of_arcs harcs hS _ (Tree.mem_extraArcs.1 ha).1

theorem fundamentalCycles?_of_arcs (hi : S.initial? = .ok init) (hi' : S'.initial? = .ok init) :
    (S.treeFrom init).fundamentalCycles? S' = (S.treeFrom init).fundamentalCycles? S := by
  rw [← treeFrom_of_arcs harcs hS hS', fundamentalCycles?_treeFrom hS' hi',
    writtenCycles_of_arcs harcs hS hS', treeFrom_of_arcs harcs hS hS',
    fundamentalCycles?_treeFrom hS hi]

end Same

theorem named_of_mem_arcs (hS : S.lts.Valid) (hnamed : S.Named) {a : Arc Value} (ha : a ∈ S.arcs) :
    a.Named := by
  have hmem := (mem_map_key_arcs hS).1 (List.mem_map_of_mem ha)
  have hends := hS.closed _ hmem
  obtain ⟨b, hb, hsame⟩ := List.mem_map.1 hmem
  have hlabel : b.label = a.label := (Arc.mk.inj hsame).2.2
  exact ⟨fun hnull => hnamed.states (hnull ▸ hends.1), fun hnull => hnamed.states (hnull ▸ hends.2),
    hlabel ▸ hnamed.labels b hb⟩

/-- No state is mentioned that `S` has not. -/
theorem mem_states_of_mentions (hS : S.lts.Valid) (hi : S.initial? = .ok init) {k : Key}
    (hk : k ∈ (mentions init S.arcs).map Value.key) : k ∈ S.lts.states := by
  rcases mem_mentions_keys.1 hk with rfl | ⟨a, ha, hend⟩
  · exact initial_mem hS hi
  · obtain ⟨hsource, htarget⟩ := hS.closed a ((mem_map_key_arcs hS).1 ha)
    rcases hend with rfl | rfl
    · exact hsource
    · exact htarget

/-- A system that is laid out by the arcs of `S` is `S` rebuilt. -/
theorem LaidOut.rebuilt (hS : S.lts.Valid) (hi : S.initial? = .ok init)
    (h : S'.LaidOut name (some init) (mentions init S.arcs) S.arcs) (hS' : S'.lts.Valid) :
    S.Rebuilt init S' := by
  have harcs := h.written_arcs hS
  have hi' := h.initial?_eq
  have hextra := extraArcs?_of_arcs harcs hS hS' hi hi'
  have hcycles := fundamentalCycles?_of_arcs harcs hS hS' hi hi'
  rw [extraArcs?_treeFrom hS hi] at hextra
  rw [fundamentalCycles?_treeFrom hS hi] at hcycles
  refine ⟨hi', (h.lists hS').mem_arcs, fun e => ?_, fun k => ?_, fun v hv => ?_, S.treeFrom init,
    spanningTree?_of_initial hi, ?_, ⟨_, extraArcs?_treeFrom hS hi, hextra⟩, _,
    fundamentalCycles?_treeFrom hS hi, hcycles⟩
  · simp only [mem_alphabet, mem_lts_arcs_of_arcs harcs hS]
  · rw [h.states, map_distinctBy, mem_distinct, mem_mentions_keys]
  · have hhas : S.Has v := mem_states_of_mentions hS hi (h.has_iff.1 hv)
    refine ⟨S.postsetOf v, ?_, postset?_of_has hhas⟩
    rw [postset?_of_has hv, postsetOf_of_arcs harcs hS]
  · rw [spanningTree?_of_initial hi', treeFrom_of_arcs harcs hS hS']

/-- A system with an initial state can be made anew of its arcs, whatever has led to it, and it is then
rebuilt. -/
theorem ofArcs_rebuilds {s : Session} (hs : s.Reached) (hmem : S ∈ s.systems)
    (hi : S.initial? = .ok init) (name : String) :
    ∃ S', ofArcs name (S.arcs.map Arc.triple) init = .ok S' ∧ S.Rebuilt init S' := by
  have hS := hs.sound.valid S hmem
  have hnamed := (hs.grounded.systems S hmem).named
  have hhas : S.Has init := initial_mem hS hi
  have hinit : init ≠ .null := fun hnull => hnamed.states (hnull ▸ hhas)
  obtain ⟨S', hmade, hlaid⟩ := exists_ofArcs name hinit fun a ha => named_of_mem_arcs hS hnamed ha
  exact ⟨S', hmade, hlaid.rebuilt hS hi (valid_ofArcs hmade)⟩

/-! ## A system that was made out of order -/

def tangledSession : Session := (Session.run false
  [.newSystem "" (some "lts"),
    .toSystem "lts" (.createStates [.text "s1", .text "s0", .text "s2"]),
    .toSystem "lts" (.createArc (.text "s2") (.text "s0") (.text "b")),
    .toSystem "lts" (.createArc (.text "s1") (.text "s0") (.text "a")),
    .toSystem "lts" (.createArc (.text "s0") (.text "s1") (.text "c")),
    .toSystem "lts" (.createArc (.text "s0") (.text "s2") (.text "b")),
    .toSystem "lts" (.setInitial (.text "s0"))] {}).2

/-- The system of that session. -/
def tangledSystem : System where
  written :=
    { states := [.text "s1", .text "s0", .text "s2"]
      arcs := [⟨.text "s2", .text "s0", "b"⟩, ⟨.text "s1", .text "s0", "a"⟩,
        ⟨.text "s0", .text "s1", "c"⟩, ⟨.text "s0", .text "s2", "b"⟩]
      initial := some (.text "s0") }
  alphabet := ["b", "a", "c"]
  alphabet_eq := rfl

/-- That system, rebuilt. -/
def tidySystem : System where
  written :=
    { states := [.text "s0", .text "s1", .text "s2"]
      arcs := [⟨.text "s1", .text "s0", "a"⟩, ⟨.text "s0", .text "s1", "c"⟩,
        ⟨.text "s0", .text "s2", "b"⟩, ⟨.text "s2", .text "s0", "b"⟩]
      initial := some (.text "s0") }
  alphabet := ["a", "c", "b"]
  alphabet_eq := by decide

/-- States, labels and incoming arcs stand in another order then. -/
theorem ofArcs_rebuilds_tangled :
    tangledSession.Reached ∧ tangledSystem ∈ tangledSession.systems ∧
      tangledSystem.initial? = .ok (.text "s0") ∧
      ofArcs "" (tangledSystem.arcs.map Arc.triple) (.text "s0") = .ok tidySystem ∧
      tangledSystem.Rebuilt (.text "s0") tidySystem ∧
      tidySystem.lts.states ≠ tangledSystem.lts.states ∧
      tidySystem.alphabet ≠ tangledSystem.alphabet ∧
      tidySystem.lts.preset (.text "s0") ≠ tangledSystem.lts.preset (.text "s0") := by
  have hs : tangledSession.Reached := .run .empty false _
  have hmem : tangledSystem ∈ tangledSession.systems := List.mem_cons_self
  have hi : tangledSystem.initial? = .ok (.text "s0") := rfl
  have hmade : ofArcs "" (tangledSystem.arcs.map Arc.triple) (.text "s0") = .ok tidySystem := rfl
  obtain ⟨S', hS', hrebuilt⟩ := ofArcs_rebuilds hs hmem hi ""
  obtain rfl : tidySystem = S' := Except.ok.inj (hmade.symm.trans hS')
  exact ⟨hs, hmem, hi, hmade, hrebuilt, by decide, by decide, by decide⟩

end System

end RegionCalculus
