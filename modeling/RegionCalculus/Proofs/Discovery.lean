import RegionCalculus.Proofs.Growth
import RegionCalculus.Proofs.Validity
import RegionCalculus.Tree.Basic

/-!
# What a search discovers

A search from a state of a valid system discovers exactly the states that can be reached from it,
each once and by an arc from a state that was discovered before. Which of the waiting arcs are
followed first makes no difference to this.

* `Lts.discoveriesFrom G d unseen waiting`: the discoveries of a search that is under way.
* `grown_discoveriesFrom`: attached to a tree that has seen the rest, they make a larger tree.
* `target_discovered`: an arc that waits, or leaves a discovered state, ends in a discovered state
  unless its target had been seen before.
-/

namespace RegionCalculus.Lts
set_option autoImplicit false

variable {ι : Type} {G : Lts ι} {d : Discipline} {root : ι}

theorem Reach.mem_states (hG : G.Valid) (hroot : root ∈ G.states) {s : ι} (hs : G.Reach root s) :
    s ∈ G.states := by
  cases hs with
  | root => exact hroot
  | arc ha _ => exact (hG.closed _ ha).2

variable [DecidableEq ι]

/-- The arcs by which a search under way still discovers states. -/
def discoveriesFrom (G : Lts ι) (d : Discipline) (unseen : List ι) (waiting : List (Arc ι)) :
    List (Arc ι) :=
  ((G.explore d unseen waiting).filter (·.discovers)).map (·.arc)

@[simp] theorem discoveriesFrom_nil (G : Lts ι) (d : Discipline) (unseen : List ι) :
    G.discoveriesFrom d unseen [] = [] := by
  simp [discoveriesFrom]

theorem discoveriesFrom_discover (G : Lts ι) (d : Discipline) {unseen : List ι} {a : Arc ι}
    {rest : List (Arc ι)} (h : a.target ∈ unseen) :
    G.discoveriesFrom d unseen (a :: rest) =
      a :: G.discoveriesFrom d (unseen.erase a.target) (d.join (G.postset a.target) rest) := by
  simp [discoveriesFrom, G.explore_discover d h]

theorem discoveriesFrom_discard (G : Lts ι) (d : Discipline) {unseen : List ι} {a : Arc ι}
    {rest : List (Arc ι)} (h : a.target ∉ unseen) :
    G.discoveriesFrom d unseen (a :: rest) = G.discoveriesFrom d unseen rest := by
  simp [discoveriesFrom, G.explore_discard d h]

theorem discoveries_eq (G : Lts ι) (d : Discipline) (root : ι) :
    G.discoveries d root =
      G.discoveriesFrom d (G.states.erase root) (d.join (G.postset root) []) := rfl

/-! ## Discovered states make a tree -/

/-- The discoveries of a search extend a tree whose states are not among the unseen ones and whose
states are the sources of all waiting arcs. -/
theorem grown_discoveriesFrom {unseen : List ι} {waiting : List (Arc ι)} {t : Tree ι}
    (ht : t.Grown) (hn : unseen.Nodup) (hu : ∀ s ∈ unseen, s ∉ t.states)
    (hw : ∀ a ∈ waiting, a.source ∈ t.states) :
    Tree.Grown ⟨t.root, t.arcs ++ G.discoveriesFrom d unseen waiting⟩ := by
  fun_induction explore G d unseen waiting generalizing t with
  | case1 unseen =>
    rw [discoveriesFrom_nil, List.append_nil]
    exact ht
  | case2 unseen a rest ha ih =>
    have hsource : a.source ∈ t.states := hw a List.mem_cons_self
    have hunseen : ∀ s ∈ unseen.erase a.target, s ∉ (t.attach a).states := by
      intro s hs
      obtain ⟨hne, hs⟩ := hn.mem_erase_iff.1 hs
      simpa [hne] using hu s hs
    have hwaiting : ∀ b ∈ d.join (G.postset a.target) rest, b.source ∈ (t.attach a).states := by
      intro b hb
      rw [Tree.states_attach, List.mem_append, List.mem_singleton]
      rcases Discipline.mem_join.1 hb with hb | hb
      · exact .inr (mem_postset.1 hb).2
      · exact .inl (hw b (List.mem_cons_of_mem _ hb))
    have hgrown := ih (ht.attach hsource (hu _ ha)) (hn.erase _) hunseen hwaiting
    rw [discoveriesFrom_discover G d ha]
    simpa using hgrown
  | case3 unseen a rest ha ih =>
    rw [discoveriesFrom_discard G d ha]
    exact ih ht hn hu fun b hb => hw b (List.mem_cons_of_mem _ hb)

theorem grown_discoveries (hn : G.states.Nodup) : Tree.Grown ⟨root, G.discoveries d root⟩ := by
  have hgrown : Tree.Grown ⟨root, [] ++ G.discoveries d root⟩ := by
    rw [discoveries_eq]
    refine grown_discoveriesFrom (t := ⟨root, []⟩) (.single root) (hn.erase root) ?_ ?_
    · intro s hs
      simpa [Tree.states] using (hn.mem_erase_iff.1 hs).1
    · intro a ha
      rcases Discipline.mem_join.1 ha with ha | ha
      · simpa [Tree.states] using (mem_postset.1 ha).2
      · simp at ha
  simpa using hgrown

/-! ## Nothing that can be reached is missed -/

/-- The arcs that wait and the arcs out of states still to be discovered have targets that were seen
before or will be discovered. -/
theorem target_discovered {unseen : List ι} {waiting : List (Arc ι)} {a : Arc ι}
    (ha : a ∈ waiting ∨ ∃ b ∈ G.discoveriesFrom d unseen waiting, a ∈ G.postset b.target)
    (hu : a.target ∈ unseen) :
    ∃ c ∈ G.discoveriesFrom d unseen waiting, c.target = a.target := by
  fun_induction explore G d unseen waiting with
  | case1 unseen => simp at ha
  | case2 unseen x rest hx ih =>
    rw [discoveriesFrom_discover G d hx] at ha ⊢
    by_cases htarget : x.target = a.target
    · exact ⟨x, List.mem_cons_self, htarget⟩
    · have hstill : a.target ∈ unseen.erase x.target :=
        (List.mem_erase_of_ne (Ne.symm htarget)).2 hu
      have hwaits : a ∈ d.join (G.postset x.target) rest ∨
          ∃ b ∈ G.discoveriesFrom d (unseen.erase x.target) (d.join (G.postset x.target) rest),
            a ∈ G.postset b.target := by
        rw [Discipline.mem_join]
        rcases ha with ha | ⟨b, hb, ha⟩
        · rcases List.mem_cons.1 ha with rfl | ha
          · exact absurd rfl htarget
          · exact .inl (.inr ha)
        · rcases List.mem_cons.1 hb with rfl | hb
          · exact .inl (.inl ha)
          · exact .inr ⟨b, hb, ha⟩
      obtain ⟨c, hc, htc⟩ := ih hwaits hstill
      exact ⟨c, List.mem_cons_of_mem _ hc, htc⟩
  | case3 unseen x rest hx ih =>
    rw [discoveriesFrom_discard G d hx] at ha ⊢
    refine ih (ha.imp_left fun ha => ?_) hu
    rcases List.mem_cons.1 ha with rfl | ha
    · exact absurd hu hx
    · exact ha

/-- A search from a state finds exactly the states that can be reached from it. -/
theorem mem_found_iff (hG : G.Valid) {s : ι} :
    s ∈ G.found d root ↔ G.Reach root s := by
  have hgrown : Tree.Grown ⟨root, G.discoveries d root⟩ := grown_discoveries hG.nodup_states
  constructor
  · intro hs
    refine hgrown.states_induction (P := G.Reach root) .root (fun a ha hr => ?_) s hs
    exact .arc (mem_of_mem_discoveries ha) hr
  · intro hs
    induction hs with
    | root => exact List.mem_cons_self
    | @arc a ha _ ih =>
      by_cases htarget : a.target = root
      · rw [htarget]
        exact List.mem_cons_self
      · have hunseen : a.target ∈ G.states.erase root :=
          (List.mem_erase_of_ne htarget).2 (hG.closed a ha).2
        have hwaits : a ∈ d.join (G.postset root) [] ∨
            ∃ b ∈ G.discoveries d root, a ∈ G.postset b.target := by
          rw [Discipline.mem_join]
          rcases List.mem_cons.1 ih with hs | hs
          · exact .inl (.inl (mem_postset.2 ⟨ha, hs⟩))
          · obtain ⟨b, hb, hb'⟩ := List.mem_map.1 hs
            exact .inr ⟨b, hb, mem_postset.2 ⟨ha, hb'.symm⟩⟩
        obtain ⟨c, hc, hca⟩ := target_discovered hwaits hunseen
        exact List.mem_cons_of_mem _ (hca ▸ List.mem_map_of_mem hc)

theorem mem_reachable_iff (hG : G.Valid) (hroot : root ∈ G.states) {s : ι} :
    s ∈ G.reachable root ↔ G.Reach root s := by
  rw [mem_reachable, mem_found_iff hG]
  exact ⟨And.right, fun hs => ⟨hs.mem_states hG hroot, hs⟩⟩

/-! ## The spanning tree -/

theorem grown_spanningTree (hG : G.Valid) (root : ι) : (G.spanningTree root).Grown :=
  grown_discoveries hG.nodup_states

theorem mem_arcs_of_mem_spanningTree {a : Arc ι} (h : a ∈ (G.spanningTree root).arcs) :
    a ∈ G.arcs :=
  mem_of_mem_discoveries h

theorem mem_states_spanningTree (hG : G.Valid) {s : ι} :
    s ∈ (G.spanningTree root).states ↔ G.Reach root s :=
  mem_found_iff (d := .newestFirst) hG

end RegionCalculus.Lts
