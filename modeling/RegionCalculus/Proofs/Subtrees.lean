import RegionCalculus.Proofs.CommonAncestors
import RegionCalculus.Proofs.DepthFirst

/-!
# Subtrees of a depth-first search

The states that a visit adds to a tree hang below the visited state, and the visit leaves no arc out
of them unfollowed. So an arc that leads forward in the order of discovery leads down the tree, and the
states below any state stand in a row.

* `Tree.Block t u before inside after`: the states below `u` stand in a row that `u` heads.
* `Tree.Leaving t s as`: the arcs `as` leave the state `s` of the tree. Recursion takes such arcs.
* `Lts.Follows.keeps`: what attached arcs leave alone at old states, recursion leaves alone there.
* `Lts.Follows.way_of_new`: the way to a state that recursion adds passes the source of the arcs, and
  after it only new states.
* `Lts.Follows.mem_way_of_arc`: an arc from a new state to a later one leads down the tree.
* `Lts.Follows.exists_block`: the states below a new state stand in a row.
* `WrittenTree.DepthFirst t S`: all this as the tree and the system answer it.
* `System.spanningTree_depthFirst`: the spanning tree of every system with an initial state is so.
-/

namespace RegionCalculus
set_option autoImplicit false

variable {ι : Type}

namespace Tree

variable {t : Tree ι} {s u v : ι} {a : Arc ι} {rest : List (Arc ι)} {before inside after : List ι}

theorem mem_states_attach : s ∈ (t.attach a).states ↔ s ∈ t.states ∨ s = a.target := by
  rw [states_attach, List.mem_append, List.mem_singleton]

/-! ## Arcs out of a tree state -/

/-- Arcs out of the state `s` of a tree. -/
structure Leaving (t : Tree ι) (s : ι) (as : List (Arc ι)) : Prop where
  grown : t.Grown
  mem : s ∈ t.states
  source : ∀ a ∈ as, a.source = s

theorem Leaving.tail (h : t.Leaving s (a :: rest)) : t.Leaving s rest :=
  ⟨h.grown, h.mem, (List.forall_mem_cons.1 h.source).2⟩

theorem Leaving.grown_attach (h : t.Leaving s (a :: rest)) (ha : a.target ∉ t.states) :
    (t.attach a).Grown :=
  h.grown.attach (h.source a List.mem_cons_self ▸ h.mem) ha

variable [DecidableEq ι]

theorem way_attach_of_mem (ha : a.target ∉ t.states) (hs : s ∈ t.states) :
    (t.attach a).way s = t.way s := by
  rw [way, rootPath_attach, if_neg (ne_of_mem_of_not_mem hs ha).symm, attach_root, way]

theorem Grown.way_subset (ht : t.Grown) (hv : v ∈ t.states) : ∀ x ∈ t.way v, x ∈ t.states := by
  intro x hx
  rcases List.mem_cons.1 hx with rfl | hx
  · exact t.root_mem_states
  · obtain ⟨a, ha, rfl⟩ := List.mem_map.1 hx
    exact target_mem_states (ht.rootPath_subset v hv a ha)

/-! ## Rows -/

/-- In the order of discovery, the states below `u` stand in a row that `u` heads. -/
structure Block (t : Tree ι) (u : ι) (before inside after : List ι) : Prop where
  states : t.states = before ++ u :: inside ++ after
  before : ∀ v ∈ before, u ∉ t.way v
  inside : ∀ v ∈ inside, u ∈ t.way v
  after : ∀ v ∈ after, u ∉ t.way v

theorem Block.mem_way_iff (h : t.Block u before inside after) (ht : t.Grown) (hv : v ∈ t.states) :
    u ∈ t.way v ↔ v ∈ u :: inside := by
  constructor
  · intro hway
    rw [h.states, List.mem_append, List.mem_append] at hv
    rcases hv with (hv | hv) | hv
    · exact absurd hway (h.before v hv)
    · exact hv
    · exact absurd hway (h.after v hv)
  · intro hmem
    rcases List.mem_cons.1 hmem with rfl | hmem
    · exact ht.self_mem_way hv
    · exact h.inside v hmem

/-- All states of a tree are below its root. -/
theorem block_root (t : Tree ι) : t.Block t.root [] (t.arcs.map Arc.target) [] where
  states := (List.append_nil _).symm
  before := by simp
  inside := fun _ _ => List.mem_cons_self
  after := by simp

/-! ## Ways to attached states -/

namespace Leaving

theorem postset (G : Lts ι) (ht : t.Grown) (hs : s ∈ t.states) :
    t.Leaving s (G.postset s).reverse :=
  ⟨ht, hs, fun _ ha => (Lts.mem_postset.1 (List.mem_reverse.1 ha)).2⟩

theorem attach (h : t.Leaving s (a :: rest)) (ha : a.target ∉ t.states) (G : Lts ι) :
    (t.attach a).Leaving a.target (G.postset a.target).reverse :=
  .postset G (h.grown_attach ha) (mem_states_attach.2 (.inr rfl))

theorem way_target (h : t.Leaving s (a :: rest)) (ha : a.target ∉ t.states) :
    (t.attach a).way a.target = t.way s ++ [a.target] := by
  have harc : a ∈ (t.attach a).arcs := List.mem_append_right _ (List.mem_singleton_self a)
  rw [(h.grown_attach ha).way_target harc, h.source a List.mem_cons_self,
    way_attach_of_mem ha h.mem]

end Leaving

end Tree

variable [DecidableEq ι]

namespace Lts.Follows

variable {G : Lts ι} {t t' : Tree ι} {as : List (Arc ι)} {s u v : ι}

/-! ## What recursion keeps -/

/-- What an attached arc leaves as it is at the states of a tree, recursion leaves as it is there. -/
theorem keeps {β : Type} {f : Tree ι → ι → β} (h : G.Follows t as t')
    (hf : ∀ (t : Tree ι) (b : Arc ι), b.target ∉ t.states →
      ∀ s ∈ t.states, f (t.attach b) s = f t s) :
    ∀ s ∈ t.states, f t' s = f t s := by
  induction h with
  | done t => exact fun s _ => rfl
  | pass _ _ ih => exact ih
  | @visit t t₁ t₂ a rest ha h₁ _ ih₁ ih₂ =>
    intro s hs
    have hs₀ : s ∈ (t.attach a).states := Tree.mem_states_attach.2 (.inl hs)
    rw [ih₂ s (h₁.states_subset s hs₀), ih₁ s hs₀, hf t a ha s hs]

theorem way_eq (h : G.Follows t as t') : ∀ s ∈ t.states, t'.way s = t.way s :=
  h.keeps fun _ _ hb _ hs => Tree.way_attach_of_mem hb hs

theorem position_eq (h : G.Follows t as t') : ∀ s ∈ t.states, t'.position s = t.position s :=
  h.keeps fun _ _ _ _ hs => Tree.position_attach_of_mem hs

theorem states_prefix (h : G.Follows t as t') : t.states <+: t'.states := by
  induction h with
  | done t => exact List.prefix_rfl
  | pass _ _ ih => exact ih
  | @visit t t₁ t₂ a rest _ _ _ ih₁ ih₂ =>
    rw [Tree.states_attach] at ih₁
    exact ((List.prefix_append _ _).trans ih₁).trans ih₂

theorem grown (h : G.Follows t as t') (ht : t.Leaving s as) : t'.Grown := by
  induction h generalizing s with
  | done t => exact ht.grown
  | pass _ _ ih => exact ih ht.tail
  | @visit t t₁ t₂ a rest ha h₁ _ ih₁ ih₂ =>
    have hs₁ : s ∈ t₁.states := h₁.states_subset s (Tree.mem_states_attach.2 (.inl ht.mem))
    exact ih₂ ⟨ih₁ (ht.attach ha G), hs₁, ht.tail.source⟩

/-- After a visit, the arcs behind still leave their source. -/
theorem leaving {a : Arc ι} {rest : List (Arc ι)}
    (h : G.Follows (t.attach a) (G.postset a.target).reverse t') (ht : t.Leaving s (a :: rest))
    (ha : a.target ∉ t.states) : t'.Leaving s rest :=
  ⟨h.grown (ht.attach ha G), h.states_subset s (Tree.mem_states_attach.2 (.inl ht.mem)),
    ht.tail.source⟩

/-! ## No arc is left unfollowed -/

theorem target_mem (h : G.Follows t as t') : ∀ a ∈ as, a.target ∈ t'.states := by
  induction h with
  | done t => simp
  | pass ha h ih => exact List.forall_mem_cons.2 ⟨h.states_subset _ ha, ih⟩
  | @visit t t₁ t₂ a rest _ h₁ h₂ _ ih₂ =>
    have htarget : a.target ∈ (t.attach a).states := Tree.mem_states_attach.2 (.inr rfl)
    exact List.forall_mem_cons.2 ⟨h₂.states_subset _ (h₁.states_subset _ htarget), ih₂⟩

/-- The arcs out of the states that recursion adds end in the tree. -/
theorem target_mem_of_new (h : G.Follows t as t') (hu : u ∈ t'.states) (hnew : u ∉ t.states) :
    ∀ b ∈ G.postset u, b.target ∈ t'.states := by
  induction h with
  | done t => exact absurd hu hnew
  | pass _ _ ih => exact ih hu hnew
  | @visit t t₁ t₂ a rest _ h₁ h₂ ih₁ ih₂ =>
    by_cases hu₁ : u ∈ t₁.states
    · refine fun b hb => h₂.states_subset _ ?_
      by_cases hua : u = a.target
      · exact h₁.target_mem b (List.mem_reverse.2 (hua ▸ hb))
      · exact ih₁ hu₁ (by simp [hnew, hua]) b hb
    · exact ih₂ hu hu₁

/-! ## New states hang below the visited state -/

/-- The way to a state that recursion adds goes on from the source of the arcs that are taken, through
new states alone. -/
theorem way_of_new (h : G.Follows t as t') (ht : t.Leaving s as) (hv : v ∈ t'.states)
    (hnew : v ∉ t.states) : ∃ below, t'.way v = t.way s ++ below ∧ ∀ x ∈ below, x ∉ t.states := by
  induction h generalizing s with
  | done t => exact absurd hv hnew
  | pass _ _ ih => exact ih ht.tail hv hnew
  | @visit t t₁ t₂ a rest ha h₁ h₂ ih₁ ih₂ =>
    have hold : ∀ x ∈ t.states, x ∈ (t.attach a).states := fun x hx =>
      Tree.mem_states_attach.2 (.inl hx)
    have hvisit := ht.attach ha G
    by_cases hv₁ : v ∈ t₁.states
    · rw [h₂.way_eq v hv₁]
      by_cases hva : v = a.target
      · refine ⟨[a.target], ?_, by simpa using ha⟩
        rw [hva, h₁.way_eq _ hvisit.mem, ht.way_target ha]
      · obtain ⟨below, hway, hbelow⟩ := ih₁ hvisit hv₁ (by simp [hnew, hva])
        refine ⟨a.target :: below, ?_, List.forall_mem_cons.2 ⟨ha, fun x hx hmem => ?_⟩⟩
        · rw [hway, ht.way_target ha, List.append_assoc, List.singleton_append]
        · exact hbelow x hx (hold x hmem)
    · obtain ⟨below, hway, hbelow⟩ := ih₂ (h₁.leaving ht ha) hv hv₁
      refine ⟨below, ?_, fun x hx hmem => hbelow x hx (h₁.states_subset x (hold x hmem))⟩
      rw [hway, h₁.way_eq s (hold s ht.mem), Tree.way_attach_of_mem ha ht.mem]

theorem mem_way_of_new (h : G.Follows t as t') (ht : t.Leaving s as) (hv : v ∈ t'.states)
    (hnew : v ∉ t.states) : s ∈ t'.way v := by
  obtain ⟨below, hway, _⟩ := h.way_of_new ht hv hnew
  rw [hway]
  exact List.mem_append_left _ (ht.grown.self_mem_way ht.mem)

/-- An old state is on the way to a new one only if it is on the way to the source. -/
theorem mem_way_of_old (h : G.Follows t as t') (ht : t.Leaving s as) (hv : v ∈ t'.states)
    (hnew : v ∉ t.states) (hu : u ∈ t.states) (hway : u ∈ t'.way v) : u ∈ t.way s := by
  obtain ⟨below, heq, hbelow⟩ := h.way_of_new ht hv hnew
  rw [heq, List.mem_append] at hway
  exact hway.resolve_right fun hmem => hbelow u hmem hu

/-! ## Forward arcs lead down the tree -/

/-- All arcs out of a visited state are followed before its visit ends, so those that lead forward lead
to states that the visit adds. -/
theorem mem_way_of_visit {a b : Arc ι}
    (h : G.Follows (t.attach a) (G.postset a.target).reverse t')
    (ht : (t.attach a).Leaving a.target (G.postset a.target).reverse) (ha : a.target ∉ t.states)
    (hb : b ∈ G.postset a.target) (hlt : t'.position a.target < t'.position b.target) :
    a.target ∈ t'.way b.target := by
  refine h.mem_way_of_new ht (h.target_mem b (List.mem_reverse.2 hb)) fun hmem => ?_
  have hlast : (t.attach a).position b.target < (t.attach a).states.length :=
    List.idxOf_lt_length_of_mem hmem
  rw [h.position_eq _ ht.mem, h.position_eq _ hmem, Tree.position_attach_target ha] at hlt
  rw [Tree.states_attach, List.length_append, List.length_singleton] at hlast
  omega

/-- An arc from a state that recursion adds to a later state of the tree leads down the tree. -/
theorem mem_way_of_arc (h : G.Follows t as t') (ht : t.Leaving s as) (hu : u ∈ t'.states)
    (hnew : u ∉ t.states) {b : Arc ι} (hb : b ∈ G.postset u)
    (hlt : t'.position u < t'.position b.target) : u ∈ t'.way b.target := by
  induction h generalizing s with
  | done t => exact absurd hu hnew
  | pass _ _ ih => exact ih ht.tail hu hnew hlt
  | @visit t t₁ t₂ a rest ha h₁ h₂ ih₁ ih₂ =>
    have hvisit := ht.attach ha G
    by_cases hu₁ : u ∈ t₁.states
    · by_cases hua : u = a.target
      · subst hua
        have hv₁ : b.target ∈ t₁.states := h₁.target_mem b (List.mem_reverse.2 hb)
        rw [h₂.position_eq _ hu₁, h₂.position_eq _ hv₁] at hlt
        rw [h₂.way_eq _ hv₁]
        exact h₁.mem_way_of_visit hvisit ha hb hlt
      · have hnew₀ : u ∉ (t.attach a).states := by simp [hnew, hua]
        have hv₁ := h₁.target_mem_of_new hu₁ hnew₀ b hb
        rw [h₂.position_eq _ hu₁, h₂.position_eq _ hv₁] at hlt
        rw [h₂.way_eq _ hv₁]
        exact ih₁ hvisit hu₁ hnew₀ hlt
    · exact ih₂ (h₁.leaving ht ha) hu hu₁ hlt

/-! ## Subtrees stand in a row -/

/-- The states that recursion adds stand behind the tree and are new. -/
theorem exists_states_append (h : G.Follows t as t') (ht : t.Leaving s as) :
    ∃ more, t'.states = t.states ++ more ∧ ∀ v ∈ more, v ∈ t'.states ∧ v ∉ t.states := by
  obtain ⟨more, hmore⟩ := h.states_prefix
  have hn := (h.grown ht).nodup_states
  rw [← hmore] at hn ⊢
  exact ⟨more, rfl, fun v hv =>
    ⟨List.mem_append_right _ hv, fun hold => List.disjoint_of_nodup_append hn hold hv⟩⟩

/-- A row of the tree before stays one. What recursion adds is below its head only if the source of the
arcs is. -/
theorem block_of_old (h : G.Follows t as t') (ht : t.Leaving s as) {before inside after : List ι}
    (hu : t.Block u before inside after) (hs : u ∉ t.way s) :
    ∃ after', t'.Block u before inside after' := by
  obtain ⟨more, hmore, hnew⟩ := h.exists_states_append ht
  have hmem : ∀ v ∈ before ++ u :: inside ++ after, v ∈ t.states := fun v hv => hu.states ▸ hv
  simp only [List.forall_mem_append, List.forall_mem_cons] at hmem
  obtain ⟨⟨hbefore, hself, hinside⟩, hafter⟩ := hmem
  refine ⟨after ++ more, ?_, fun v hv => ?_, fun v hv => ?_, List.forall_mem_append.2 ⟨?_, ?_⟩⟩
  · rw [hmore, hu.states, List.append_assoc]
  · exact h.way_eq v (hbefore v hv) ▸ hu.before v hv
  · exact h.way_eq v (hinside v hv) ▸ hu.inside v hv
  · exact fun v hv => h.way_eq v (hafter v hv) ▸ hu.after v hv
  · exact fun v hv hway => hs (h.mem_way_of_old ht (hnew v hv).1 (hnew v hv).2 hself hway)

/-- The states that a visit adds are the row of the visited state. -/
theorem block_of_visit {a : Arc ι} (h : G.Follows (t.attach a) (G.postset a.target).reverse t')
    (hvisit : (t.attach a).Leaving a.target (G.postset a.target).reverse) (ht : t.Grown)
    (ha : a.target ∉ t.states) : ∃ inside, t'.Block a.target t.states inside [] := by
  obtain ⟨more, hmore, hnew⟩ := h.exists_states_append hvisit
  refine ⟨more, ?_, fun v hv hway => ?_, fun v hv => ?_, by simp⟩
  · rw [hmore, Tree.states_attach, List.append_nil, List.append_assoc, List.singleton_append]
  · rw [h.way_eq v (Tree.mem_states_attach.2 (.inl hv)), Tree.way_attach_of_mem ha hv] at hway
    exact ha (ht.way_subset hv _ hway)
  · exact h.mem_way_of_new hvisit (hnew v hv).1 (hnew v hv).2

theorem exists_block (h : G.Follows t as t') (ht : t.Leaving s as) (hu : u ∈ t'.states)
    (hnew : u ∉ t.states) : ∃ before inside after, t'.Block u before inside after := by
  induction h generalizing s with
  | done t => exact absurd hu hnew
  | pass _ _ ih => exact ih ht.tail hu hnew
  | @visit t t₁ t₂ a rest ha h₁ h₂ ih₁ ih₂ =>
    have hvisit := ht.attach ha G
    by_cases hu₁ : u ∈ t₁.states
    · have hblock : ∃ before inside after, t₁.Block u before inside after := by
        by_cases hua : u = a.target
        · obtain ⟨inside, hblock⟩ := h₁.block_of_visit hvisit ht.grown ha
          exact ⟨t.states, inside, [], hua ▸ hblock⟩
        · exact ih₁ hvisit hu₁ (by simp [hnew, hua])
      -- `u` is newer than the source of the arcs, so those behind add nothing below it
      have hs : u ∉ t₁.way s := fun hway => by
        rw [h₁.way_eq s (Tree.mem_states_attach.2 (.inl ht.mem)),
          Tree.way_attach_of_mem ha ht.mem] at hway
        exact hnew (ht.grown.way_subset ht.mem u hway)
      obtain ⟨before, inside, after, hblock⟩ := hblock
      obtain ⟨after', hblock⟩ := h₂.block_of_old (h₁.leaving ht ha) hblock hs
      exact ⟨before, inside, after', hblock⟩
    · exact ih₂ (h₁.leaving ht ha) hu hu₁

end Lts.Follows

/-! ## Spanning trees -/

namespace Lts

variable {G : Lts ι} {root u : ι}

theorem leaving_root (G : Lts ι) (root : ι) :
    (⟨root, []⟩ : Tree ι).Leaving root (G.postset root).reverse :=
  .postset G (.single root) (Tree.root_mem_states _)

/-- In a spanning tree, the source of a forward arc lies on the way to its target. -/
theorem mem_way_spanningTree (hG : G.Valid) {a : Arc ι} (ha : a ∈ G.arcs)
    (hs : a.source ∈ (G.spanningTree root).states)
    (hlt : (G.spanningTree root).position a.source < (G.spanningTree root).position a.target) :
    a.source ∈ (G.spanningTree root).way a.target := by
  have hvisit : G.Visits ⟨root, []⟩ root (G.spanningTree root) := (visits_iff hG root).2 rfl
  by_cases hroot : a.source = root
  · rw [hroot]
    exact List.mem_cons_self
  · have hnew : a.source ∉ (⟨root, []⟩ : Tree ι).states := by simpa [Tree.states] using hroot
    exact hvisit.mem_way_of_arc (leaving_root G root) hs hnew (mem_postset.2 ⟨ha, rfl⟩) hlt

theorem exists_block_spanningTree (hG : G.Valid) (hu : u ∈ (G.spanningTree root).states) :
    ∃ before inside after, (G.spanningTree root).Block u before inside after := by
  have hvisit : G.Visits ⟨root, []⟩ root (G.spanningTree root) := (visits_iff hG root).2 rfl
  by_cases hroot : u = root
  · rw [hroot]
    exact ⟨_, _, _, (G.spanningTree root).block_root⟩
  · have hnew : u ∉ (⟨root, []⟩ : Tree ι).states := by simpa [Tree.states] using hroot
    exact hvisit.exists_block (leaving_root G root) hu hnew

end Lts

/-! ## Answers of trees -/

namespace WrittenTree

variable {t : WrittenTree} {S : System} {init u v : Value}

/-- The answered path to `v` passes `u`, or starts or ends there. -/
def Above (t : WrittenTree) (u v : Value) : Prop :=
  ∃ path, t.rootPath? v = .ok path ∧ u.key ∈ t.tree.root :: path.map fun a => a.target.key

theorem above_iff (ht : t.tree.Grown) (hforms : t.forms.map Value.key = t.tree.states) :
    t.Above u v ↔ v.key ∈ t.tree.states ∧ u.key ∈ t.tree.way v.key := by
  have hway : ∀ path, t.rootPath? v = .ok path → v.key ∈ t.tree.states ∧
      (t.tree.root :: path.map fun a => a.target.key) = t.tree.way v.key := by
    intro path hpath
    by_cases hv : v.key ∈ t.tree.states
    · obtain rfl := Except.ok.inj ((rootPath?_of_mem hv).symm.trans hpath)
      have hkeys := map_key_map_arcForm ht hforms (ht.rootPath_subset v.key hv)
      refine ⟨hv, ?_⟩
      rw [Tree.way, ← congrArg (List.map Arc.target) hkeys, List.map_map (f := Arc.map Value.key)]
      rfl
    · rw [rootPath?, require, if_neg hv] at hpath
      cases hpath
  constructor
  · rintro ⟨path, hpath, hmem⟩
    exact ⟨(hway path hpath).1, (hway path hpath).2 ▸ hmem⟩
  · rintro ⟨hv, hmem⟩
    exact ⟨_, rootPath?_of_mem hv, (hway _ (rootPath?_of_mem hv)).2 ▸ hmem⟩

/-- In the order of discovery, every arc of the system that leads forward leads down the tree, and the
states below any state `u` stand in a row that `u` heads. So an extra arc leads to its own source, down
the tree, or to a state that was discovered earlier. -/
structure DepthFirst (t : WrittenTree) (S : System) : Prop where
  forward : ∀ (u v : Value) (l : String), ⟨u.key, v.key, l⟩ ∈ S.lts.arcs →
    u.key ∈ t.forms.map Value.key →
    (t.forms.map Value.key).idxOf u.key < (t.forms.map Value.key).idxOf v.key → t.Above u v
  rows : ∀ u : Value, u.key ∈ t.forms.map Value.key → ∃ before inside after,
    t.forms.map Value.key = before ++ u.key :: inside ++ after ∧
    ∀ v, t.Above u v ↔ v.key ∈ u.key :: inside
  extra : ∃ extra, t.extraArcs? S = .ok extra ∧ ∀ a ∈ extra,
    a.target.key = a.source.key ∨ t.Above a.source a.target ∨
      (t.forms.map Value.key).idxOf a.target.key < (t.forms.map Value.key).idxOf a.source.key

end WrittenTree

namespace System

variable {S : System} {init : Value}

theorem forward_treeFrom (hS : S.lts.Valid) (hi : S.initial? = .ok init) {u v : Value} {l : String}
    (ha : ⟨u.key, v.key, l⟩ ∈ S.lts.arcs) (hu : u.key ∈ (S.treeFrom init).tree.states)
    (hlt : (S.treeFrom init).tree.position u.key < (S.treeFrom init).tree.position v.key) :
    (S.treeFrom init).Above u v := by
  refine (WrittenTree.above_iff (grown_treeFrom hS init) (map_key_treeFrom hi)).2 ⟨?_, ?_⟩
  · have hreach := (Lts.mem_states_spanningTree hS).1 hu
    exact (Lts.mem_states_spanningTree hS).2 (.arc ha hreach)
  · exact Lts.mem_way_spanningTree hS ha hu hlt

theorem rows_treeFrom (hS : S.lts.Valid) (hi : S.initial? = .ok init) {u : Value}
    (hu : u.key ∈ (S.treeFrom init).tree.states) : ∃ before inside after,
      (S.treeFrom init).tree.states = before ++ u.key :: inside ++ after ∧
      ∀ v, (S.treeFrom init).Above u v ↔ v.key ∈ u.key :: inside := by
  have hgrown := grown_treeFrom hS init
  obtain ⟨before, inside, after, hblock⟩ := Lts.exists_block_spanningTree hS hu
  refine ⟨before, inside, after, hblock.states, fun v => ?_⟩
  rw [WrittenTree.above_iff hgrown (map_key_treeFrom hi)]
  constructor
  · rintro ⟨hv, hway⟩
    exact (hblock.mem_way_iff hgrown hv).1 hway
  · intro hmem
    have hv : v.key ∈ (S.treeFrom init).tree.states := by
      have hstates : (S.treeFrom init).tree.states = before ++ u.key :: inside ++ after :=
        hblock.states
      rw [hstates]
      exact List.mem_append_left _ (List.mem_append_right _ hmem)
    exact ⟨hv, (hblock.mem_way_iff hgrown hv).2 hmem⟩

theorem treeFrom_depthFirst (hS : S.lts.Valid) (hi : S.initial? = .ok init) :
    (S.treeFrom init).DepthFirst S where
  forward := fun u v l ha hu hlt => by
    rw [map_key_treeFrom hi] at hu hlt
    exact forward_treeFrom hS hi ha hu hlt
  rows := fun u hu => by
    rw [map_key_treeFrom hi] at hu ⊢
    exact rows_treeFrom hS hi hu
  extra := by
    refine ⟨_, extraArcs?_treeFrom hS hi, fun a ha => ?_⟩
    obtain ⟨b, hb, rfl⟩ := List.mem_map.1 ha
    obtain ⟨harc, hs, _⟩ := Tree.mem_extraArcs.1 hb
    rw [← map_key_extraForms hi b hb] at harc hs
    rw [map_key_treeFrom hi]
    rcases Nat.lt_trichotomy
      ((S.treeFrom init).tree.position ((S.treeFrom init).extraForm S b).source.key)
      ((S.treeFrom init).tree.position ((S.treeFrom init).extraForm S b).target.key)
      with hlt | heq | hgt
    · exact .inr (.inl (forward_treeFrom hS hi harc hs hlt))
    · exact .inl ((List.idxOf_inj hs).1 heq).symm
    · exact .inr (.inr hgt)

/-- The spanning tree of a system with an initial state is one of a depth-first search. -/
theorem spanningTree_depthFirst {s : Session} (hs : s.Reached) (hmem : S ∈ s.systems)
    (hi : S.initial? = .ok init) : ∃ t, S.spanningTree? = .ok t ∧ t.DepthFirst S :=
  ⟨S.treeFrom init, spanningTree?_of_initial hi, treeFrom_depthFirst (hs.sound.valid S hmem) hi⟩

theorem spanningTree_depthFirst_diamond :
    (Session.diamondSession Session.diamondArcs).Reached ∧
      Session.diamondForwards ∈ (Session.diamondSession Session.diamondArcs).systems ∧
      Session.diamondForwards.initial? = .ok (.text "s0") ∧
      ∃ t, Session.diamondForwards.spanningTree? = .ok t ∧
        t.DepthFirst Session.diamondForwards := by
  have hreached := Session.steady_diamondForwards.reached
  have hmem : Session.diamondForwards ∈ (Session.diamondSession Session.diamondArcs).systems :=
    List.mem_cons_self
  exact ⟨hreached, hmem, rfl, spanningTree_depthFirst hreached hmem rfl⟩

end System

end RegionCalculus
