import RegionCalculus.Proofs.Answers
import RegionCalculus.Proofs.Steadiness

/-!
# Spanning trees of systems

The spanning tree of a system with an initial state, as its queries describe it.

* `WrittenTree.Spans t S init`: `t` is a spanning tree of what can be reached in `S` from `init`.
* `System.spanningTree_spans`: every system of a reached session has one, once it has an initial
  state, and its states are those that the system calls reachable.
-/

namespace RegionCalculus
set_option autoImplicit false

/-- The states of `t` are those that can be reached, each once and the initial state first. Every
other one has a single parent arc, an arc of the system out of a state that stands earlier and is one
step less deep. -/
structure WrittenTree.Spans (t : WrittenTree) (S : System) (init : Value) : Prop where
  covers : ∀ k, k ∈ t.forms.map Value.key ↔ S.lts.Reach init.key k
  nodup : (t.forms.map Value.key).Nodup
  first : t.forms.head? = some init
  parent_init : t.parentArc? init = .ok none
  parent : ∀ v : Value, v.key ∈ t.forms.map Value.key → v.key ≠ init.key →
    ∃ a, t.parentArc? v = .ok (some a) ∧ a.target.key = v.key ∧ a.map Value.key ∈ S.lts.arcs
  single : ∀ a ∈ t.tree.arcs, ∀ b ∈ t.tree.arcs, a.target = b.target → a = b
  earlier : ∀ (v : Value) (a : Arc Value), t.parentArc? v = .ok (some a) →
    (t.forms.map Value.key).idxOf a.source.key < (t.forms.map Value.key).idxOf v.key
  depth_init : t.depth? init = .ok 0
  depth_parent : ∀ (v : Value) (a : Arc Value), t.parentArc? v = .ok (some a) →
    ∃ d, t.depth? a.source = .ok d ∧ t.depth? v = .ok (d + 1)
  arcs_length : t.tree.arcs.length + 1 = t.forms.length

namespace WrittenTree

variable {t : WrittenTree}

/-! ## Queries by key -/

theorem parentArc?_of_mem {v : Value} (hv : v.key ∈ t.tree.states) :
    t.parentArc? v = .ok ((t.tree.parentArc v.key).map t.arcForm) := by
  rw [parentArc?, require, if_pos hv]
  rfl

theorem depth?_of_mem {v : Value} (hv : v.key ∈ t.tree.states) :
    t.depth? v = .ok (t.tree.depth v.key) := by
  rw [depth?, require, if_pos hv]
  rfl

/-- A tree arc is written with the keys of its endpoints. -/
theorem map_key_arcForm (ht : t.tree.Grown) (hforms : t.forms.map Value.key = t.tree.states)
    {a : Arc Key} (ha : a ∈ t.tree.arcs) : (t.arcForm a).map Value.key = a := by
  have hs : (t.form a.source).key = a.source := key_form (hforms ▸ ht.source_mem ha)
  have hd : (t.form a.target).key = a.target := key_form (hforms ▸ Tree.target_mem_states ha)
  simp only [arcForm, Arc.map, hs, hd]

/-- An extra arc is written with the keys of its endpoints. -/
theorem map_key_extraForm {S : System} (hforms : t.forms.map Value.key = t.tree.states)
    {a : Arc Key} (ha : a ∈ t.tree.extraArcs S.lts) : (t.extraForm S a).map Value.key = a := by
  obtain ⟨hmem, hs, _⟩ := Tree.mem_extraArcs.1 ha
  have hsource : (t.form a.source).key = a.source := key_form (hforms ▸ hs)
  have htarget : (S.targetForm a).key = a.target := System.key_targetForm hmem
  simp only [extraForm, Arc.map, hsource, htarget]

/-- A parent arc that is answered is a tree arc, as written. -/
theorem parentArc?_eq_some (ht : t.tree.Grown) (hforms : t.forms.map Value.key = t.tree.states)
    {v : Value} {a : Arc Value} (h : t.parentArc? v = .ok (some a)) :
    ∃ b ∈ t.tree.arcs, b.target = v.key ∧ b.source = a.source.key := by
  by_cases hv : v.key ∈ t.tree.states
  · rw [parentArc?_of_mem hv] at h
    obtain ⟨b, hb, rfl⟩ := Option.map_eq_some_iff.1 (Except.ok.inj h)
    obtain ⟨hmem, htarget⟩ := ht.parentArc_eq_some_iff.1 hb
    exact ⟨b, hmem, htarget, (congrArg Arc.source (map_key_arcForm ht hforms hmem)).symm⟩
  · rw [parentArc?, require, if_neg hv] at h
    cases h

theorem exists_parentArc? (ht : t.tree.Grown) (hforms : t.forms.map Value.key = t.tree.states)
    {v : Value} (hv : v.key ∈ t.tree.states) (hne : v.key ≠ t.tree.root) :
    ∃ b ∈ t.tree.arcs, t.parentArc? v = .ok (some (t.arcForm b)) ∧ b.target = v.key ∧
      (t.arcForm b).map Value.key = b := by
  obtain ⟨b, hb⟩ := ht.exists_parentArc hv hne
  obtain ⟨hmem, htarget⟩ := ht.parentArc_eq_some_iff.1 hb
  refine ⟨b, hmem, ?_, htarget, map_key_arcForm ht hforms hmem⟩
  rw [parentArc?_of_mem hv, hb]
  rfl

theorem parentArc?_earlier (ht : t.tree.Grown) (hforms : t.forms.map Value.key = t.tree.states)
    {v : Value} {a : Arc Value} (h : t.parentArc? v = .ok (some a)) :
    (t.forms.map Value.key).idxOf a.source.key < (t.forms.map Value.key).idxOf v.key := by
  obtain ⟨b, hb, htarget, hsource⟩ := parentArc?_eq_some ht hforms h
  rw [hforms, ← htarget, ← hsource]
  exact ht.position_source_lt hb

theorem depth?_parentArc? (ht : t.tree.Grown) (hforms : t.forms.map Value.key = t.tree.states)
    {v : Value} {a : Arc Value} (h : t.parentArc? v = .ok (some a)) :
    ∃ d, t.depth? a.source = .ok d ∧ t.depth? v = .ok (d + 1) := by
  obtain ⟨b, hb, htarget, hsource⟩ := parentArc?_eq_some ht hforms h
  have hs : a.source.key ∈ t.tree.states := hsource ▸ ht.source_mem hb
  have hv : v.key ∈ t.tree.states := htarget ▸ Tree.target_mem_states hb
  refine ⟨t.tree.depth a.source.key, depth?_of_mem hs, ?_⟩
  rw [depth?_of_mem hv, ← htarget, ht.depth_target hb, hsource]

end WrittenTree

namespace System

variable {S : System} {init : Value}

theorem map_key_treeFrom (hi : S.initial? = .ok init) :
    (S.treeFrom init).forms.map Value.key = (S.treeFrom init).tree.states :=
  map_key_forms (spanningTree?_of_initial hi)

theorem grown_treeFrom (hS : S.lts.Valid) (init : Value) : (S.treeFrom init).tree.Grown :=
  Lts.grown_spanningTree hS init.key

/-! ## Extra arcs as written -/

theorem extraArcs?_treeFrom (hS : S.lts.Valid) (hi : S.initial? = .ok init) :
    (S.treeFrom init).extraArcs? S =
      .ok (((S.lts.spanningTree init.key).extraArcs S.lts).map ((S.treeFrom init).extraForm S)) := by
  have hextra := Lts.extraArcs?_spanningTree hS (initial_mem hS hi)
  simp only [WrittenTree.extraArcs?, treeFrom, hextra]

theorem map_key_extraForms (hi : S.initial? = .ok init) :
    ∀ a ∈ (S.lts.spanningTree init.key).extraArcs S.lts,
      ((S.treeFrom init).extraForm S a).map Value.key = a := fun _ ha =>
  WrittenTree.map_key_extraForm (map_key_treeFrom hi) ha

/-- The written extra arcs name the extra arcs. -/
theorem map_key_map_extraForm (hi : S.initial? = .ok init) :
    (((S.lts.spanningTree init.key).extraArcs S.lts).map
      ((S.treeFrom init).extraForm S)).map (Arc.map Value.key) =
      (S.lts.spanningTree init.key).extraArcs S.lts := by
  rw [List.map_map]
  exact (List.map_congr_left (map_key_extraForms hi)).trans (List.map_id _)

/-! ## Spanning trees span -/

theorem treeFrom_spans (hS : S.lts.Valid) (hi : S.initial? = .ok init) :
    (S.treeFrom init).Spans S init where
  covers := fun k => by
    rw [map_key_treeFrom hi]
    exact Lts.mem_states_spanningTree hS
  nodup := by
    rw [map_key_treeFrom hi]
    exact (grown_treeFrom hS init).nodup_states
  first := rfl
  parent_init := by
    have hroot : (S.treeFrom init).tree.parentArc init.key = none :=
      (grown_treeFrom hS init).parentArc_root
    rw [WrittenTree.parentArc?_of_mem (Tree.root_mem_states _), hroot]
    rfl
  parent := fun v hv hne => by
    rw [map_key_treeFrom hi] at hv
    obtain ⟨b, hb, ha, htarget, hkeys⟩ :=
      WrittenTree.exists_parentArc? (grown_treeFrom hS init) (map_key_treeFrom hi) hv hne
    refine ⟨_, ha, (congrArg Arc.target hkeys).trans htarget, ?_⟩
    rw [hkeys]
    exact Lts.mem_arcs_of_mem_spanningTree hb
  single := fun a ha b hb => (grown_treeFrom hS init).eq_of_target_eq ha hb
  earlier := fun _ _ => WrittenTree.parentArc?_earlier (grown_treeFrom hS init) (map_key_treeFrom hi)
  depth_init := by
    rw [WrittenTree.depth?_of_mem (Tree.root_mem_states _)]
    exact congrArg Except.ok (grown_treeFrom hS init).depth_root
  depth_parent := fun _ _ =>
    WrittenTree.depth?_parentArc? (grown_treeFrom hS init) (map_key_treeFrom hi)
  arcs_length := by
    simp [treeFrom]

/-- A system with an initial state has a spanning tree. Its states are those that the system calls
reachable: the least set with the initial state that the arcs do not leave. -/
theorem spanningTree_spans {s : Session} (hs : s.Reached) (hmem : S ∈ s.systems)
    (hi : S.initial? = .ok init) :
    ∃ t found, S.spanningTree? = .ok t ∧ S.reachable? = .ok found ∧ t.Spans S init ∧
      (∀ k, k ∈ t.forms.map Value.key ↔ k ∈ found.map Value.key) ∧
      ∀ k, k ∈ t.forms.map Value.key ↔ ∀ P : Key → Prop,
        P init.key → (∀ a ∈ S.lts.arcs, P a.source → P a.target) → P k := by
  have hS := hs.sound.valid S hmem
  have hspans := treeFrom_spans hS hi
  have hkeys := map_key_reachable hi
  cases hfound : S.reachable? with
  | error f => simp [hfound, Except.map] at hkeys
  | ok found =>
    rw [hfound] at hkeys
    have hsame : found.map Value.key = S.lts.reachable init.key := Except.ok.inj hkeys
    refine ⟨S.treeFrom init, found, spanningTree?_of_initial hi, rfl, hspans, ?_, ?_⟩
    · intro k
      rw [hspans.covers k, hsame]
      exact (Lts.mem_reachable_iff hS (initial_mem hS hi)).symm
    · intro k
      rw [hspans.covers k]
      exact Lts.reach_iff_forall_closed

theorem spanningTree_spans_ring :
    Session.ringSession.Reached ∧ Session.ringSystem ∈ Session.ringSession.systems ∧
      Session.ringSystem.initial? = .ok (.text "s0") ∧
      ∃ t found, Session.ringSystem.spanningTree? = .ok t ∧
        Session.ringSystem.reachable? = .ok found ∧ t.Spans Session.ringSystem (.text "s0") ∧
        (∀ k, k ∈ t.forms.map Value.key ↔ k ∈ found.map Value.key) ∧
        ∀ k, k ∈ t.forms.map Value.key ↔ ∀ P : Key → Prop, P (Value.text "s0").key →
          (∀ a ∈ Session.ringSystem.lts.arcs, P a.source → P a.target) → P k := by
  have hreached := Session.steady_ringSession.reached
  have hmem : Session.ringSystem ∈ Session.ringSession.systems := List.mem_cons_self
  exact ⟨hreached, hmem, rfl, spanningTree_spans hreached hmem rfl⟩

end System

end RegionCalculus
