import RegionCalculus.Proofs.SpanningTrees

/-!
# Depth-first search by recursion

The search that follows the newest waiting arcs first discovers states as the recursive procedure
does: to visit a state, take the arcs out of it from the last to the first, attach each one whose
target is not in the tree yet, and visit its target before the next arc is taken.

* `Lts.Follows G t as t'`: the arcs `as`, taken in turn by the recursive procedure, make `t'` of the
  tree `t`.
* `Lts.Visits G t s t'`: the visit of the state `s` makes `t'` of the tree `t`.
* `Lts.discoveriesFrom_follows`: arcs that wait in front of others are dealt with as by recursion,
  whatever waits behind them.
* `System.spanningTree_visits`: the recursive procedure ends, with the spanning tree and no other tree.
-/

namespace RegionCalculus
set_option autoImplicit false

variable {ι : Type} [DecidableEq ι]

namespace Lts

/-- What the recursive procedure makes of a tree: an arc into the tree is passed over; another one is
attached, and the arcs out of its target are taken, last to first, before the rest. -/
inductive Follows (G : Lts ι) : Tree ι → List (Arc ι) → Tree ι → Prop
  | done (t : Tree ι) : Follows G t [] t
  | pass {t t' : Tree ι} {a : Arc ι} {rest : List (Arc ι)} :
      a.target ∈ t.states → Follows G t rest t' → Follows G t (a :: rest) t'
  | visit {t t₁ t₂ : Tree ι} {a : Arc ι} {rest : List (Arc ι)} :
      a.target ∉ t.states → Follows G (t.attach a) (G.postset a.target).reverse t₁ →
      Follows G t₁ rest t₂ → Follows G t (a :: rest) t₂

def Visits (G : Lts ι) (t : Tree ι) (s : ι) (t' : Tree ι) : Prop :=
  G.Follows t (G.postset s).reverse t'

def lacking (G : Lts ι) (t : Tree ι) : List ι := G.states.filter (· ∉ t.states)

variable {G : Lts ι} {t t' : Tree ι} {as : List (Arc ι)}

@[simp] theorem mem_lacking {s : ι} : s ∈ G.lacking t ↔ s ∈ G.states ∧ s ∉ t.states := by
  simp [lacking]

theorem lacking_attach (hn : G.states.Nodup) (t : Tree ι) (a : Arc ι) :
    G.lacking (t.attach a) = (G.lacking t).erase a.target := by
  rw [lacking, lacking, (hn.filter _).erase_eq_filter, List.filter_filter]
  refine List.filter_congr fun s _ => Bool.eq_iff_iff.2 ?_
  simp only [decide_eq_true_eq, Tree.states_attach, List.mem_append, List.mem_singleton, not_or,
    Bool.and_eq_true, bne_iff_ne, and_comm, ne_eq]

theorem lacking_single (hn : G.states.Nodup) (root : ι) :
    G.lacking ⟨root, []⟩ = G.states.erase root := by
  rw [hn.erase_eq_filter, lacking]
  refine List.filter_congr fun s _ => Bool.eq_iff_iff.2 ?_
  simp [Tree.states]

theorem arcs_of_postset {s : ι} : ∀ a ∈ (G.postset s).reverse, a ∈ G.arcs := fun _ ha =>
  (mem_postset.1 (List.mem_reverse.1 ha)).1

/-! ## The recursive procedure never takes a state away -/

theorem Follows.states_subset (h : G.Follows t as t') : ∀ s ∈ t.states, s ∈ t'.states := by
  induction h with
  | done t => exact fun s hs => hs
  | pass _ _ ih => exact ih
  | visit _ _ _ ih₁ ih₂ =>
    intro s hs
    exact ih₂ s (ih₁ s (by rw [Tree.states_attach]; exact List.mem_append_left _ hs))

theorem Follows.root_eq (h : G.Follows t as t') : t'.root = t.root := by
  induction h with
  | done t => rfl
  | pass _ _ ih => exact ih
  | visit _ _ _ ih₁ ih₂ => exact ih₂.trans ih₁

theorem length_lacking_le (h : ∀ s ∈ t.states, s ∈ t'.states) :
    (G.lacking t').length ≤ (G.lacking t).length := by
  refine (List.monotone_filter_right G.states fun s hs => ?_).length_le
  simp only [decide_eq_true_eq] at hs ⊢
  exact fun hmem => hs (h s hmem)

theorem length_lacking_attach (hn : G.states.Nodup) {a : Arc ι} (hs : a.target ∈ G.states)
    (hnew : a.target ∉ t.states) :
    (G.lacking (t.attach a)).length < (G.lacking t).length := by
  have hmem : a.target ∈ G.lacking t := mem_lacking.2 ⟨hs, hnew⟩
  have hpos : 0 < (G.lacking t).length := List.length_pos_of_mem hmem
  rw [lacking_attach hn, List.length_erase_of_mem hmem]
  omega

/-! ## The recursive procedure ends -/

theorem exists_follows (hG : G.Valid) (t : Tree ι) (as : List (Arc ι))
    (has : ∀ a ∈ as, a ∈ G.arcs) : ∃ t', G.Follows t as t' := by
  match as with
  | [] => exact ⟨t, .done t⟩
  | a :: rest =>
    have hrest : ∀ b ∈ rest, b ∈ G.arcs := fun b hb => has b (List.mem_cons_of_mem _ hb)
    by_cases ha : a.target ∈ t.states
    · obtain ⟨t', h⟩ := exists_follows hG t rest hrest
      exact ⟨t', .pass ha h⟩
    · have htarget : a.target ∈ G.states := (hG.closed a (has a List.mem_cons_self)).2
      have hfewer := length_lacking_attach hG.nodup_states htarget ha
      obtain ⟨t₁, h₁⟩ := exists_follows hG (t.attach a) (G.postset a.target).reverse arcs_of_postset
      have hstill := length_lacking_le (G := G) h₁.states_subset
      -- the arcs after the visit meet a larger tree, which is what makes this call smaller
      obtain ⟨t₂, h₂⟩ := exists_follows hG t₁ rest hrest
      exact ⟨t₂, .visit ha h₁ h₂⟩
termination_by ((G.lacking t).length, as.length)
decreasing_by
  · exact Prod.Lex.right _ (Nat.lt_succ_self _)
  · exact Prod.Lex.left _ _ hfewer
  · exact Prod.Lex.left _ _ (Nat.lt_of_le_of_lt hstill hfewer)

/-! ## The stack holds what recursion has still to do -/

/-- Of the waiting arcs, those in front are dealt with as by recursion: the search attaches what the
recursive procedure attaches, and then goes on with the arcs behind them. -/
theorem discoveriesFrom_follows (hG : G.Valid) (h : G.Follows t as t')
    (has : ∀ a ∈ as, a ∈ G.arcs) (behind : List (Arc ι)) :
    t.arcs ++ G.discoveriesFrom .newestFirst (G.lacking t) (as ++ behind) =
      t'.arcs ++ G.discoveriesFrom .newestFirst (G.lacking t') behind := by
  -- a visit recurses twice: first with the rest of the arcs behind, then without
  induction h generalizing behind with
  | done t => rfl
  | @pass t t' a rest ha _ ih =>
    have hseen : a.target ∉ G.lacking t := fun hmem => (mem_lacking.1 hmem).2 ha
    rw [List.cons_append, discoveriesFrom_discard G _ hseen]
    exact ih (fun b hb => has b (List.mem_cons_of_mem _ hb)) behind
  | @visit t t₁ t₂ a rest ha _ _ ih₁ ih₂ =>
    have htarget : a.target ∈ G.states := (hG.closed a (has a List.mem_cons_self)).2
    have hnew : a.target ∈ G.lacking t := mem_lacking.2 ⟨htarget, ha⟩
    have hjoin : Discipline.newestFirst.join (G.postset a.target) (rest ++ behind) =
        (G.postset a.target).reverse ++ (rest ++ behind) := rfl
    calc t.arcs ++ G.discoveriesFrom .newestFirst (G.lacking t) (a :: rest ++ behind)
        = (t.attach a).arcs ++ G.discoveriesFrom .newestFirst (G.lacking (t.attach a))
            ((G.postset a.target).reverse ++ (rest ++ behind)) := by
          rw [List.cons_append, discoveriesFrom_discover G _ hnew, hjoin,
            lacking_attach hG.nodup_states, Tree.attach_arcs, List.append_cons]
      _ = t₁.arcs ++ G.discoveriesFrom .newestFirst (G.lacking t₁) (rest ++ behind) :=
          ih₁ arcs_of_postset (rest ++ behind)
      _ = t₂.arcs ++ G.discoveriesFrom .newestFirst (G.lacking t₂) behind :=
          ih₂ (fun b hb => has b (List.mem_cons_of_mem _ hb)) behind

theorem Visits.eq_spanningTree (hG : G.Valid) {root : ι}
    (h : G.Visits ⟨root, []⟩ root t') : t' = G.spanningTree root := by
  have hsame := discoveriesFrom_follows hG h arcs_of_postset []
  rw [lacking_single hG.nodup_states, discoveriesFrom_nil, List.nil_append] at hsame
  have harcs : t'.arcs = G.discoveries .newestFirst root := by
    rw [discoveries_eq, ← List.append_nil t'.arcs, ← hsame]
    rfl
  have hroot : t'.root = root := h.root_eq
  obtain ⟨r, bs⟩ := t'
  simp only at harcs hroot
  rw [harcs, hroot, spanningTree]

/-- The visit of the root ends with the spanning tree, and with no other tree. -/
theorem visits_iff (hG : G.Valid) (root : ι) :
    G.Visits ⟨root, []⟩ root t' ↔ t' = G.spanningTree root := by
  refine ⟨fun h => h.eq_spanningTree hG, ?_⟩
  rintro rfl
  obtain ⟨t, h⟩ := exists_follows hG ⟨root, []⟩ (G.postset root).reverse arcs_of_postset
  have hvisits : G.Visits ⟨root, []⟩ root t := h
  rw [← hvisits.eq_spanningTree hG]
  exact hvisits

end Lts

namespace WrittenTree

variable {t : WrittenTree}

theorem map_key_parentArc? (ht : t.tree.Grown) (hforms : t.forms.map Value.key = t.tree.states)
    {v : Value} (hv : v.key ∈ t.tree.states) :
    ∃ found, t.parentArc? v = .ok found ∧
      found.map (Arc.map Value.key) = t.tree.parentArc v.key := by
  refine ⟨_, parentArc?_of_mem hv, ?_⟩
  cases h : t.tree.parentArc v.key with
  | none => rfl
  | some a =>
    have ha : a ∈ t.tree.arcs := (ht.parentArc_eq_some_iff.1 h).1
    rw [Option.map_some, Option.map_some, map_key_arcForm ht hforms ha]

end WrittenTree

namespace System

variable {S : System} {init : Value}

/-- For a system with an initial state, the recursive procedure ends with one tree, whatever the
system is. The spanning tree has its states in the same order and its parent arcs. -/
theorem spanningTree_visits {s : Session} (hs : s.Reached) (hmem : S ∈ s.systems)
    (hi : S.initial? = .ok init) :
    ∃ t t', S.spanningTree? = .ok t ∧
      (∀ t₀, S.lts.Visits ⟨init.key, []⟩ init.key t₀ ↔ t₀ = t') ∧
      t.forms.map Value.key = t'.states ∧
      ∀ v : Value, v.key ∈ t'.states → ∃ found, t.parentArc? v = .ok found ∧
        found.map (Arc.map Value.key) = t'.parentArc v.key := by
  have hS := hs.sound.valid S hmem
  refine ⟨S.treeFrom init, S.lts.spanningTree init.key, spanningTree?_of_initial hi,
    fun t₀ => Lts.visits_iff hS init.key, map_key_treeFrom hi, fun v hv => ?_⟩
  exact WrittenTree.map_key_parentArc? (grown_treeFrom hS init) (map_key_treeFrom hi) hv

theorem spanningTree_visits_ring :
    Session.ringSession.Reached ∧ Session.ringSystem ∈ Session.ringSession.systems ∧
      Session.ringSystem.initial? = .ok (.text "s0") ∧
      ∃ t t', Session.ringSystem.spanningTree? = .ok t ∧
        (∀ t₀, Session.ringSystem.lts.Visits ⟨(Value.text "s0").key, []⟩ (Value.text "s0").key t₀ ↔
          t₀ = t') ∧
        t.forms.map Value.key = t'.states ∧
        ∀ v : Value, v.key ∈ t'.states → ∃ found, t.parentArc? v = .ok found ∧
          found.map (Arc.map Value.key) = t'.parentArc v.key := by
  have hreached := Session.steady_ringSession.reached
  have hmem : Session.ringSystem ∈ Session.ringSession.systems := List.mem_cons_self
  exact ⟨hreached, hmem, rfl, spanningTree_visits hreached hmem rfl⟩

end System

end RegionCalculus
