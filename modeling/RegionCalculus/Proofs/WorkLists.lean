import RegionCalculus.Proofs.CycleVectors
import RegionCalculus.Proofs.DepthFirst
import RegionCalculus.Proofs.TreeChoice

/-!
# The work list of a spanning tree

A spanning tree is found by a loop over a stack of arcs. The top one is popped; it is discarded if it
ends in the tree, else it is attached and the arcs out of its target are pushed. At any time the popped
arcs and those on the stack are together the arcs out of tree states, each once.

* `Work ι`: a tree with the stack of arcs, the top one first. `Work.start G root` is the first one.
* `Lts.Pop G w v w'`, `Lts.Pops G w vs w'`: one turn of the loop, and some turns in a row. A visit
  is the popped arc, with whether it was attached.
* `Work.Accounted G vs w`: how the visits so far account for the tree and the stack.
* `Lts.Pops.explore_eq`: the turns are visits of the search, from the first one on.
* `Lts.WorkDone G root t extra visits`: the loop ends with the tree `t` after these visits, which are
  accounted for by `t` and `extra`.
* `System.spanningTree_workDone`: so does the loop of every system with an initial state.
-/

namespace RegionCalculus
set_option autoImplicit false

open scoped List

variable {ι : Type} [DecidableEq ι]

/-- A tree and the stack of arcs still to be popped, the top one first. -/
structure Work (ι : Type) where
  tree : Tree ι
  stack : List (Arc ι)

/-- The root with the arcs out of it, the last one on top. -/
def Work.start (G : Lts ι) (root : ι) : Work ι := ⟨⟨root, []⟩, (G.postset root).reverse⟩

namespace Lts

/-- One turn of the loop: the top arc is discarded, or attached with the arcs out of its target pushed,
the last one on top. -/
inductive Pop (G : Lts ι) : Work ι → Visit ι → Work ι → Prop
  | discard {t : Tree ι} {a : Arc ι} {rest : List (Arc ι)} :
      a.target ∈ t.states → Pop G ⟨t, a :: rest⟩ ⟨a, false⟩ ⟨t, rest⟩
  | attach {t : Tree ι} {a : Arc ι} {rest : List (Arc ι)} :
      a.target ∉ t.states →
        Pop G ⟨t, a :: rest⟩ ⟨a, true⟩ ⟨t.attach a, (G.postset a.target).reverse ++ rest⟩

/-- Turns of the loop in a row. -/
inductive Pops (G : Lts ι) : Work ι → List (Visit ι) → Work ι → Prop
  | done (w : Work ι) : Pops G w [] w
  | next {w w₁ w₂ : Work ι} {v : Visit ι} {vs : List (Visit ι)} :
      Pop G w v w₁ → Pops G w₁ vs w₂ → Pops G w (v :: vs) w₂

end Lts

/-! ## Accounts -/

/-- The visited arcs and the stack are the arcs out of tree states, and the tree arcs are those that
were attached, in this order. -/
structure Work.Accounted (G : Lts ι) (vs : List (Visit ι)) (w : Work ι) : Prop where
  popped : (vs.map (·.arc) ++ w.stack).Perm (w.tree.states.flatMap G.postset)
  attached : (vs.filter (·.discovers)).map (·.arc) = w.tree.arcs

namespace Work.Accounted

variable {G : Lts ι} {w w' : Work ι} {v : Visit ι} {vs before : List (Visit ι)} {root : ι}

theorem start (G : Lts ι) (root : ι) : Accounted G [] (Work.start G root) where
  popped := by
    rw [Work.start, Tree.states, List.map_nil, List.map_nil, List.nil_append, List.flatMap_singleton]
    exact List.reverse_perm _
  attached := rfl

/-- One turn moves an arc from the stack to the visits, and adds the arcs out of a new tree state to
the stack. -/
theorem pop (h : Accounted G before w) (hpop : G.Pop w v w') :
    Accounted G (before ++ [v]) w' := by
  obtain ⟨hpopped, hattached⟩ := h
  cases hpop with
  | @discard t a rest _ =>
    refine ⟨?_, ?_⟩
    · rw [List.map_append, List.map_singleton, List.append_assoc, List.singleton_append]
      exact hpopped
    · rw [List.filter_append, List.map_append, hattached]
      exact List.append_nil _
  | @attach t a rest _ =>
    refine ⟨?_, ?_⟩
    · rw [Tree.states_attach, List.flatMap_append, List.flatMap_singleton, List.map_append,
        List.map_singleton]
      calc before.map (·.arc) ++ [a] ++ ((G.postset a.target).reverse ++ rest)
        _ ~ before.map (·.arc) ++ [a] ++ (rest ++ G.postset a.target) :=
          (((List.reverse_perm _).append_right rest).trans List.perm_append_comm).append_left _
        _ = before.map (·.arc) ++ a :: rest ++ G.postset a.target := by
          simp only [List.append_assoc, List.cons_append, List.nil_append]
        _ ~ t.states.flatMap G.postset ++ G.postset a.target := hpopped.append_right _
    · rw [List.filter_append, List.map_append, hattached]
      rfl

theorem pops (h : Accounted G before w) (hpops : G.Pops w vs w') :
    Accounted G (before ++ vs) w' := by
  induction hpops generalizing before with
  | done w =>
    rw [List.append_nil]
    exact h
  | next hpop _ ih =>
    rw [List.append_cons]
    exact ih (h.pop hpop)

/-- If no arc was popped twice, the attached ones are exactly the tree arcs. -/
theorem discovers_iff (h : Accounted G vs w) (hn : (vs.map (·.arc)).Nodup) (hv : v ∈ vs) :
    v.discovers = true ↔ v.arc ∈ w.tree.arcs := by
  rw [← h.attached, List.mem_map]
  constructor
  · intro hdiscovers
    exact ⟨v, List.mem_filter.2 ⟨hv, hdiscovers⟩, rfl⟩
  · rintro ⟨v', hv', harc⟩
    obtain ⟨hmem, hdiscovers⟩ := List.mem_filter.1 hv'
    exact List.inj_on_of_nodup_map hn hmem hv harc ▸ hdiscovers

/-- Once the stack is empty, the discarded arcs are those out of tree states that are no tree arcs. -/
theorem discarded_perm (h : Accounted G vs w) (hempty : w.stack = [])
    (hn : (vs.map (·.arc)).Nodup) :
    ((vs.filter fun v => !v.discovers).map (·.arc)).Perm (w.tree.extraArcs G) := by
  have hpopped := h.popped
  rw [hempty, List.append_nil] at hpopped
  have hextra : (vs.filter fun v => !v.discovers) = vs.filter fun v => !w.tree.hasArc v.arc := by
    refine List.filter_congr fun v hv => ?_
    rw [Bool.eq_iff_iff.2 ((h.discovers_iff hn hv).trans Tree.hasArc_iff.symm)]
  calc (vs.filter fun v => !v.discovers).map (·.arc)
    _ = (vs.map (·.arc)).filter fun a => !w.tree.hasArc a := by
      rw [hextra, List.filter_map]
      rfl
    _ ~ (w.tree.states.flatMap G.postset).filter fun a => !w.tree.hasArc a := hpopped.filter _
    _ = w.tree.extraArcs G := (Lts.extraArcs_eq_filter w.tree).symm

end Work.Accounted

/-! ## The loop and the search -/

namespace Lts

variable {G : Lts ι} {w w' : Work ι} {v : Visit ι} {vs : List (Visit ι)} {root : ι}

theorem Pop.root_eq (h : G.Pop w v w') : w'.tree.root = w.tree.root := by
  cases h <;> rfl

theorem Pops.root_eq (h : G.Pops w vs w') : w'.tree.root = w.tree.root := by
  induction h with
  | done w => rfl
  | next hpop _ ih => exact ih.trans hpop.root_eq

theorem Pop.stack_subset (h : G.Pop w v w') (hw : ∀ a ∈ w.stack, a ∈ G.arcs) :
    ∀ a ∈ w'.stack, a ∈ G.arcs := by
  cases h with
  | discard _ => exact (List.forall_mem_cons.1 hw).2
  | attach _ => exact List.forall_mem_append.2 ⟨arcs_of_postset, (List.forall_mem_cons.1 hw).2⟩

/-- The loop goes on as long as there are arcs on the stack. -/
theorem exists_pop (hw : w.stack ≠ []) : ∃ v w', G.Pop w v w' := by
  obtain ⟨t, stack⟩ := w
  obtain ⟨a, rest, rfl⟩ := List.exists_cons_of_ne_nil hw
  by_cases ha : a.target ∈ t.states
  · exact ⟨_, _, .discard ha⟩
  · exact ⟨_, _, .attach ha⟩

/-- One turn is the first visit of the search that goes on from there. -/
theorem Pop.explore_eq (hG : G.Valid) (h : G.Pop w v w') (hw : ∀ a ∈ w.stack, a ∈ G.arcs) :
    G.explore .newestFirst (G.lacking w.tree) w.stack =
      v :: G.explore .newestFirst (G.lacking w'.tree) w'.stack := by
  cases h with
  | @discard t a rest ha => exact explore_discard G _ fun hmem => (mem_lacking.1 hmem).2 ha
  | @attach t a rest ha =>
    have htarget : a.target ∈ G.states := (hG.closed a (hw a List.mem_cons_self)).2
    rw [explore_discover G _ (mem_lacking.2 ⟨htarget, ha⟩), lacking_attach hG.nodup_states]
    rfl

theorem Pops.explore_eq (hG : G.Valid) (h : G.Pops w vs w') (hw : ∀ a ∈ w.stack, a ∈ G.arcs) :
    G.explore .newestFirst (G.lacking w.tree) w.stack =
      vs ++ G.explore .newestFirst (G.lacking w'.tree) w'.stack := by
  induction h with
  | done w => rfl
  | next hpop _ ih => rw [hpop.explore_eq hG hw, ih (hpop.stack_subset hw), List.cons_append]

/-- A search goes on as long as arcs wait. -/
theorem explore_eq_nil_iff {d : Discipline} {unseen : List ι} {waiting : List (Arc ι)} :
    G.explore d unseen waiting = [] ↔ waiting = [] := by
  cases waiting with
  | nil => simp
  | cons a rest =>
    by_cases ha : a.target ∈ unseen
    · simp [explore_discover G d ha]
    · simp [explore_discard G d ha]

/-- The loop ends: it makes one turn for each visit of the search, which always ends. -/
theorem exists_pops (hG : G.Valid) (w : Work ι) (hw : ∀ a ∈ w.stack, a ∈ G.arcs) :
    ∃ t, G.Pops w (G.explore .newestFirst (G.lacking w.tree) w.stack) ⟨t, []⟩ := by
  generalize hvs : G.explore .newestFirst (G.lacking w.tree) w.stack = vs
  induction vs generalizing w with
  | nil =>
    have hempty : w.stack = [] := explore_eq_nil_iff.1 hvs
    exact ⟨w.tree, hempty ▸ .done w⟩
  | cons v vs ih =>
    have hne : w.stack ≠ [] := fun hempty =>
      List.cons_ne_nil v vs (hvs.symm.trans (explore_eq_nil_iff.2 hempty))
    obtain ⟨v', w', hpop⟩ := exists_pop (G := G) hne
    rw [hpop.explore_eq hG hw, List.cons.injEq] at hvs
    obtain ⟨rfl, hrest⟩ := hvs
    obtain ⟨t, hpops⟩ := ih w' (hpop.stack_subset hw) hrest
    exact ⟨t, .next hpop hpops⟩

/-! ## The loop from the root -/

theorem search_eq (hG : G.Valid) (root : ι) :
    G.search .newestFirst root = G.explore .newestFirst (G.lacking (Work.start G root).tree)
      (Work.start G root).stack := by
  rw [Work.start, lacking_single hG.nodup_states, search]
  exact congrArg _ (List.append_nil _)

theorem pops_search (hG : G.Valid) (root : ι) :
    G.Pops (Work.start G root) (G.search .newestFirst root) ⟨G.spanningTree root, []⟩ := by
  obtain ⟨t, hpops⟩ := exists_pops hG (Work.start G root) arcs_of_postset
  rw [← search_eq hG] at hpops
  have haccounted := (Work.Accounted.start G root).pops hpops
  have hroot : t.root = root := hpops.root_eq
  have harcs : (G.spanningTree root).arcs = t.arcs := haccounted.attached
  have htree : t = G.spanningTree root := by
    obtain ⟨r, bs⟩ := t
    simp only at hroot harcs
    rw [← hroot, ← harcs, hroot]
    rfl
  exact htree ▸ hpops

/-- Any turns of the loop in a row are visits of the search, and the loop goes on until they are all
of them. -/
theorem Pops.prefix_search (hG : G.Valid) (h : G.Pops (Work.start G root) vs w) :
    vs <+: G.search .newestFirst root ∧ (w.stack = [] ↔ vs = G.search .newestFirst root) := by
  have hrest := h.explore_eq hG arcs_of_postset
  rw [← search_eq hG] at hrest
  refine ⟨⟨_, hrest.symm⟩, ?_⟩
  rw [hrest, eq_comm, eq_comm (a := vs), List.append_right_eq_self, explore_eq_nil_iff, eq_comm]

/-- The loop that starts with the arcs out of `root` ends with the tree `t` and in no other way: `visits`
are what it pops from first to last. These are the arcs out of states that can be reached, each once;
those that are attached are the tree arcs, and those that are discarded are `extra`. -/
structure WorkDone (G : Lts ι) (root : ι) (t : Tree ι) (extra : List (Arc ι))
    (visits : List (Visit ι)) : Prop where
  ends : G.Pops (Work.start G root) visits ⟨t, []⟩
  only : ∀ vs w, G.Pops (Work.start G root) vs w → vs <+: visits ∧ (w.stack = [] ↔ vs = visits)
  popped : ∀ a, a ∈ visits.map (·.arc) ↔ a ∈ G.arcs ∧ G.Reach root a.source
  popped_once : (visits.map (·.arc)).Nodup
  attached : (visits.filter (·.discovers)).map (·.arc) = t.arcs
  discarded : ((visits.filter fun v => !v.discovers).map (·.arc)).Perm extra

theorem workDone (hG : G.Valid) (root : ι) :
    G.WorkDone root (G.spanningTree root) ((G.spanningTree root).extraArcs G)
      (G.search .newestFirst root) := by
  have hgrown := grown_spanningTree hG root
  have hends := pops_search hG root
  have haccounted := (Work.Accounted.start G root).pops hends
  have hpopped := haccounted.popped
  rw [List.nil_append, List.append_nil] at hpopped
  have honce := hpopped.nodup_iff.2 (nodup_flatMap_postset hG hgrown.nodup_states)
  refine ⟨hends, fun vs w h => h.prefix_search hG, fun a => ?_, honce, haccounted.attached,
    haccounted.discarded_perm rfl honce⟩
  rw [hpopped.mem_iff, List.mem_flatMap]
  constructor
  · rintro ⟨s, hs, ha⟩
    obtain ⟨harc, rfl⟩ := mem_postset.1 ha
    exact ⟨harc, (mem_states_spanningTree hG).1 hs⟩
  · rintro ⟨harc, hreach⟩
    exact ⟨a.source, (mem_states_spanningTree hG).2 hreach, mem_postset.2 ⟨harc, rfl⟩⟩

end Lts

namespace System

variable {S : System} {init : Value}

/-- For a system with an initial state, the loop ends with the spanning tree. What it has discarded are
the extra arcs that are answered. -/
theorem spanningTree_workDone {s : Session} (hs : s.Reached) (hmem : S ∈ s.systems)
    (hi : S.initial? = .ok init) :
    ∃ t extra visits, S.spanningTree? = .ok t ∧ t.extraArcs? S = .ok extra ∧
      S.lts.WorkDone init.key t.tree (extra.map (Arc.map Value.key)) visits := by
  have hS := hs.sound.valid S hmem
  refine ⟨S.treeFrom init, _, S.lts.search .newestFirst init.key, spanningTree?_of_initial hi,
    extraArcs?_treeFrom hS hi, ?_⟩
  rw [map_key_map_extraForm hi]
  exact Lts.workDone hS init.key

theorem spanningTree_workDone_diamond :
    (Session.diamondSession Session.diamondArcs).Reached ∧
      Session.diamondForwards ∈ (Session.diamondSession Session.diamondArcs).systems ∧
      Session.diamondForwards.initial? = .ok (.text "s0") ∧
      ∃ t extra visits, Session.diamondForwards.spanningTree? = .ok t ∧
        t.extraArcs? Session.diamondForwards = .ok extra ∧
        Session.diamondForwards.lts.WorkDone (Value.text "s0").key t.tree
          (extra.map (Arc.map Value.key)) visits := by
  have hreached := Session.steady_diamondForwards.reached
  have hmem : Session.diamondForwards ∈ (Session.diamondSession Session.diamondArcs).systems :=
    List.mem_cons_self
  exact ⟨hreached, hmem, rfl, spanningTree_workDone hreached hmem rfl⟩

end System

end RegionCalculus
