import RegionCalculus.Proofs.MissingStates
import RegionCalculus.Proofs.Stability

/-!
# Kept trees and growing systems

The tree that a utility keeps is one of the system as it was. States and arcs are only ever added, so
that it stays a part of the system, and what a utility and its regions read off it is never unknown
to the system.

* `WrittenTree.Inside t S`: the tree has grown along arcs of the system.
* `RegionUtility.Embedded S U`: so has a kept tree. It holds of every utility
  (`Session.Reached.embedded`).
* `WrittenTree.Inside.parts`: the states in the tree and the others are all states, each once.
* `Session.KeepsTree t p s`: what this comes to for a utility that keeps the tree `t`.
* `Session.kept_tree_stays`: from the moment at which a tree is kept, this holds for good.
-/

namespace RegionCalculus
set_option autoImplicit false

/-! ## Trees inside a system -/

/-- The tree has grown from its root along arcs of the system, and is written with its states. -/
structure WrittenTree.Inside (t : WrittenTree) (S : System) : Prop where
  grown : t.tree.Grown
  forms : t.forms.map Value.key = t.tree.states
  states : ∀ k ∈ t.tree.states, k ∈ S.lts.states
  arcs : ∀ a ∈ t.tree.arcs, a ∈ S.lts.arcs

namespace WrittenTree.Inside

variable {t : WrittenTree} {S S' : System}

theorem grows (h : t.Inside S) (hgrows : S.Grows S') : t.Inside S' where
  grown := h.grown
  forms := h.forms
  states := fun k hk => hgrows.states_subset (h.states k hk)
  arcs := fun a ha => hgrows.arcs_subset (h.arcs a ha)

theorem has_form (h : t.Inside S) {v : Value} (hv : v ∈ t.forms) : S.Has v := by
  refine h.states _ ?_
  rw [← h.forms]
  exact List.mem_map_of_mem hv

/-- The states in the tree, and the states of the system that are not: each once, and all of them. -/
theorem parts (h : t.Inside S) (hS : S.lts.Valid) {others : List Value}
    (hothers : others = S.written.states.filter fun v => v.key ∉ t.tree.states) :
    (t.forms.map Value.key).Nodup ∧ (others.map Value.key).Nodup ∧
      (t.forms.map Value.key).Disjoint (others.map Value.key) ∧
      ∀ k, k ∈ S.lts.states ↔ k ∈ t.forms.map Value.key ∨ k ∈ others.map Value.key := by
  have hkeys : others.map Value.key = S.lts.states.filter (· ∉ t.tree.states) := by
    rw [hothers, System.lts_states, List.filter_map]
    rfl
  rw [h.forms, hkeys]
  refine ⟨h.grown.nodup_states, hS.nodup_states.filter _, fun k hk hother => ?_, fun k => ?_⟩
  · exact (by simpa using (List.mem_filter.1 hother).2 : k ∉ t.tree.states) hk
  · constructor
    · intro hk
      by_cases htree : k ∈ t.tree.states
      · exact .inl htree
      · exact .inr (List.mem_filter.2 ⟨hk, by simpa using htree⟩)
    · rintro (htree | hother)
      · exact h.states k htree
      · exact (List.mem_filter.1 hother).1

end WrittenTree.Inside

theorem System.inside_of_spanningTree? {S : System} (hS : S.lts.Valid) {t : WrittenTree}
    (ht : S.spanningTree? = .ok t) : t.Inside S := by
  obtain ⟨init, hi, _⟩ := except_bind_eq_ok.1 ht
  obtain rfl : S.treeFrom init = t :=
    Except.ok.inj ((spanningTree?_of_initial hi).symm.trans ht)
  refine ⟨grown_treeFrom hS init, map_key_treeFrom hi, fun k hk => ?_, fun a ha => ?_⟩
  · exact ((Lts.mem_states_spanningTree hS).1 hk).mem_states hS (initial_mem hS hi)
  · exact Lts.mem_arcs_of_mem_spanningTree ha

/-! ## Kept trees -/

namespace RegionUtility

variable {S S' : System} {U U' : RegionUtility}

def Embedded (S : System) (U : RegionUtility) : Prop := ∀ t, U.tree = some t → t.Inside S

theorem Blank.embedded (h : Blank S U) : Embedded S U := fun _ ht => by simp [h.tree] at ht

theorem Embedded.grows (h : Embedded S U) (hgrows : S.Grows S') : Embedded S' U := fun t ht =>
  (h t ht).grows hgrows

theorem Fill.embedded (h : Fill S U U') (hS : S.lts.Valid) (hU : Embedded S U) :
    Embedded S U' := by
  cases h with
  | tree _ ht =>
    intro t' ht'
    obtain rfl := Option.some.inj ht'
    exact System.inside_of_spanningTree? hS ht
  | vectors _ _ _ => exact hU
  | cycles _ _ _ _ _ => exact hU

theorem Embedded.fills (hU : Embedded S U) (hS : S.lts.Valid)
    (h : Relation.ReflTransGen (Fill S) U U') : Embedded S U' := by
  induction h with
  | refl => exact hU
  | tail _ hstep ih => exact hstep.embedded hS ih

end RegionUtility

namespace Session

variable {s s' : Session} {u : UtilityId} {p : PlacedUtility} {t : WrittenTree}

theorem Reached.embedded (hs : s.Reached) :
    ∀ u p, s.utility? u = some p → p.utility.Embedded p.system := by
  induction hs with
  | empty => exact fun u p hp => by cases hp
  | step watched c hprev ih =>
    intro u p hp
    have hS := (hprev.step watched c).valid hp
    rcases step_utility?_cases hprev watched c hp with
      (⟨U, hU, hfills⟩ | ⟨U, hblank, hfills⟩) | ⟨S, hold, hgrows⟩
    · have hbefore : U.Embedded p.system := ih u _ hU
      exact hbefore.fills hS hfills
    · exact hblank.embedded.fills hS hfills
    · have hbefore : p.utility.Embedded S := ih u _ hold
      exact hbefore.grows hgrows

/-! ## What a kept tree comes to -/

/-- The utility keeps the tree `t`, a part of its system, and the system has extra arcs with respect to
it. The reachable and the unreachable states are all states of the system, each once. No command to the
utility, to its regions or to its builders finds a state unknown, nor does a comparison, but for the
state that a command asks for while the system does not have it. -/
structure KeepsTree (t : WrittenTree) (p : PlacedUtility) (s : Session) : Prop where
  kept : p.utility.tree = some t
  states : ∀ v ∈ t.forms, p.system.Has v
  arcs : ∀ a ∈ t.tree.arcs, (t.arcForm a).map Value.key ∈ p.system.lts.arcs
  extra : ∃ arcs, t.extraArcs? p.system = .ok arcs
  parts : ∃ others, (tellUtility p .reachable s).answer = .ok (.values t.forms) ∧
    (tellUtility p .unreachable s).answer = .ok (.values others) ∧
    (t.forms.map Value.key).Nodup ∧ (others.map Value.key).Nodup ∧
    (t.forms.map Value.key).Disjoint (others.map Value.key) ∧
    ∀ k, k ∈ p.system.lts.states ↔ k ∈ t.forms.map Value.key ∨ k ∈ others.map Value.key
  utility : ∀ c v, (tellUtility p c s).answer = .error (.unknownState v) →
    (c = .lookupVector v ∨ c = .reachingVector v) ∧ ¬p.system.Has v
  region : ∀ watched r q c v, s.region? r = some q → q.holding.region.utility = p.id →
    (tellRegion watched q c s).answer = .error (.unknownState v) →
    c = .markingOf v ∧ ¬p.system.Has v
  builder : ∀ watched b q c v, s.builder? b = some q → q.builder.utility = p.id →
    (tellBuilder watched q c s).answer ≠ .error (.unknownState v)
  equal : ∀ left right v, (equal left right s).answer ≠ .error (.unknownState v)
  distinct : ∀ items v, (distinctRegions items s).answer ≠ .error (.unknownState v)

theorem tellUtility_parts (ht : p.utility.tree = some t) :
    (tellUtility p .reachable s).answer = .ok (.values t.forms) ∧
      (tellUtility p .unreachable s).answer =
        .ok (.values (p.system.written.states.filter fun v => v.key ∉ t.tree.states)) := by
  have htree : (RegionUtility.spanningTree p.system p.utility).answer = .ok t := by
    rw [RegionUtility.spanningTree_of_some ht]
  have hreachable : (RegionUtility.reachableStates p.system p.utility).answer = .ok t.forms :=
    Attempt.answer_bind_of_ok htree
  have hothers : (RegionUtility.unreachableStates p.system p.utility).answer =
      .ok (p.system.written.states.filter fun v => v.key ∉ t.tree.states) :=
    Attempt.answer_bind_of_ok htree
  exact ⟨(Attempt.answer_bind_pure _ _ _).trans (congrArg (Except.map Answer.values) hreachable),
    (Attempt.answer_bind_pure _ _ _).trans (congrArg (Except.map Answer.values) hothers)⟩

theorem Reached.keepsTree (hs : s.Reached) (hp : s.utility? u = some p)
    (ht : p.utility.tree = some t) : KeepsTree t p s := by
  have hinside := hs.embedded u p hp t ht
  have hextra : t.extraArcs? p.system =
      .ok ((t.tree.extraArcs p.system.lts).map (t.extraForm p.system)) := by
    simp only [WrittenTree.extraArcs?, (hs.sheltered hp).extraArcs? ht]
  obtain ⟨hreachable, hothers⟩ := tellUtility_parts (s := s) ht
  obtain ⟨hid, _⟩ := utility?_eq_some_iff.1 hp
  exact
    { kept := ht
      states := fun _ => hinside.has_form
      arcs := fun a ha => by
        rw [WrittenTree.map_key_arcForm hinside.grown hinside.forms ha]
        exact hinside.arcs a ha
      extra := ⟨_, hextra⟩
      parts := ⟨_, hreachable, hothers, hinside.parts (hs.valid hp) rfl⟩
      utility := fun c => hs.utility_misses hp c
      region := fun watched _ _ c v hq hu hv => by
        rw [← (owner_eq hp hq (hu.trans hid)).2]
        exact hs.region_misses hq watched c v hv
      builder := fun watched _ _ c v hq _ => hs.builder_misses (P := fun _ => False) hq watched c v
      equal := fun left right v => equal_misses (P := fun _ => False) left right s v
      distinct := fun items v => distinct_misses (P := fun _ => False) items s v }

/-- From the moment at which a utility keeps a spanning tree, whatever commands follow, the tree stays
a part of its system, its reachable and its unreachable states are all states of the system, and no
state is found unknown but one that is asked for and that the system does not have. -/
theorem kept_tree_stays (hs : s.Reached) (hp : s.utility? u = some p)
    (ht : p.utility.tree = some t) (hlater : s.Later s') :
    ∃ p', s'.utility? u = some p' ∧ KeepsTree t p' s' := by
  obtain ⟨p', hp', hbecomes⟩ := hlater.utility? hs hp
  exact ⟨p', hp', (hlater.reached hs).keepsTree hp' (hbecomes.tree t ht)⟩

theorem kept_tree_stays_ring :
    ∃ p t, askedRing.Reached ∧ askedRing.utility? 0 = some p ∧ p.utility.tree = some t ∧
      askedRing.Later grownRing ∧
      ∃ p', grownRing.utility? 0 = some p' ∧ KeepsTree t p' grownRing := by
  have hs : askedRing.Reached := steady_ringSession.reached.run false _
  obtain ⟨_, htold⟩ := told_askedRing
  obtain ⟨p, _, t, hp, _, ht, _⟩ := htold.cycles
  have hlater : askedRing.Later grownRing := later_run false _ askedRing
  exact ⟨p, t, hs, hp, ht, hlater, kept_tree_stays hs hp ht hlater⟩

end Session

end RegionCalculus
