import RegionCalculus.Proofs.Runs
import RegionCalculus.Tree.Cycles

/-!
# Growing trees

A tree grows from its root by arcs from tree states to new states. What is read off a tree state by
state (its depth, its root path) then obeys one equation along every tree arc.

* `Tree.attach t a`: the tree with one more arc.
* `Tree.Grown t`: the tree comes from its root by attaching arcs.
* `Grown.along`: a function that an attached arc extends at its target alone obeys the equation of
  the extension along every tree arc.
-/

namespace RegionCalculus.Tree
set_option autoImplicit false

variable {ι : Type}

def attach (t : Tree ι) (a : Arc ι) : Tree ι := ⟨t.root, t.arcs ++ [a]⟩

@[simp] theorem attach_root (t : Tree ι) (a : Arc ι) : (t.attach a).root = t.root := rfl

@[simp] theorem attach_arcs (t : Tree ι) (a : Arc ι) : (t.attach a).arcs = t.arcs ++ [a] := rfl

@[simp] theorem states_attach (t : Tree ι) (a : Arc ι) :
    (t.attach a).states = t.states ++ [a.target] := by
  simp [states]

theorem root_mem_states (t : Tree ι) : t.root ∈ t.states := List.mem_cons_self

theorem target_mem_states {t : Tree ι} {a : Arc ι} (h : a ∈ t.arcs) : a.target ∈ t.states :=
  mem_states.2 (.inr ⟨a, h, rfl⟩)

/-- The trees that come from a single state by attaching arcs to new states. -/
inductive Grown : Tree ι → Prop
  | single (root : ι) : Grown ⟨root, []⟩
  | attach {t : Tree ι} {a : Arc ι} :
      Grown t → a.source ∈ t.states → a.target ∉ t.states → Grown (t.attach a)

namespace Grown

variable {t : Tree ι}

theorem nodup_states (ht : t.Grown) : t.states.Nodup := by
  induction ht with
  | single root => simp [states]
  | attach _ _ hnew ih =>
    rw [states_attach, List.nodup_append]
    refine ⟨ih, List.nodup_singleton _, ?_⟩
    intro s hs s' hs' e
    rw [e, List.mem_singleton.1 hs'] at hs
    exact hnew hs

theorem source_mem (ht : t.Grown) {a : Arc ι} (h : a ∈ t.arcs) : a.source ∈ t.states := by
  induction ht with
  | single root => simp at h
  | @attach t b _ hs _ ih =>
    rw [states_attach, List.mem_append]
    rcases List.mem_append.1 h with h | h
    · exact .inl (ih h)
    · rw [List.mem_singleton.1 h]
      exact .inl hs

theorem nodup_targets (ht : t.Grown) : (t.arcs.map Arc.target).Nodup :=
  (List.nodup_cons.1 ht.nodup_states).2

/-- A state is the target of one tree arc at most. -/
theorem eq_of_target_eq (ht : t.Grown) {a b : Arc ι} (ha : a ∈ t.arcs) (hb : b ∈ t.arcs)
    (h : a.target = b.target) : a = b :=
  List.inj_on_of_nodup_map ht.nodup_targets ha hb h

theorem target_ne_root (ht : t.Grown) {a : Arc ι} (h : a ∈ t.arcs) : a.target ≠ t.root := by
  intro e
  have hroot := (List.nodup_cons.1 ht.nodup_states).1
  exact hroot (e ▸ List.mem_map_of_mem h)

/-- What holds of the root and passes along tree arcs holds of every tree state. -/
theorem states_induction (ht : t.Grown) {P : ι → Prop} (hroot : P t.root)
    (harc : ∀ a ∈ t.arcs, P a.source → P a.target) : ∀ s ∈ t.states, P s := by
  induction ht with
  | single root =>
    intro s hs
    simp only [states, List.map_nil, List.mem_singleton] at hs
    exact hs ▸ hroot
  | @attach t b _ hb _ ih =>
    have hold := ih hroot fun a ha => harc a (by simp [ha])
    intro s hs
    rw [states_attach, List.mem_append, List.mem_singleton] at hs
    rcases hs with hs | rfl
    · exact hold s hs
    · exact harc b (by simp) (hold b.source hb)

variable [DecidableEq ι]

/-- A function that an attached arc extends at its target alone obeys the equation of the extension
along every tree arc: the endpoints of an arc are older than any arc attached later. -/
theorem along {β : Type} {f : Tree ι → ι → β} {g : β → Arc ι → β}
    (hf : ∀ t b s, f (t.attach b) s = if b.target = s then g (f t b.source) b else f t s)
    (ht : t.Grown) : ∀ a ∈ t.arcs, f t a.target = g (f t a.source) a := by
  induction ht with
  | single root => simp
  | @attach t b ht hb hnew ih =>
    intro a ha
    have hsource : ∀ s ∈ t.states, f (t.attach b) s = f t s := by
      intro s hs
      rw [hf, if_neg (ne_of_mem_of_not_mem hs hnew).symm]
    rw [attach_arcs, List.mem_append, List.mem_singleton] at ha
    rcases ha with ha | rfl
    · rw [hsource _ (target_mem_states ha), hsource _ (ht.source_mem ha)]
      exact ih a ha
    · rw [hsource _ hb, hf, if_pos rfl]

/-! ## Parents -/

theorem parentArc_eq_some_iff (ht : t.Grown) {s : ι} {a : Arc ι} :
    t.parentArc s = some a ↔ a ∈ t.arcs ∧ a.target = s := by
  constructor
  · intro h
    exact ⟨List.mem_of_find?_eq_some h, by simpa using List.find?_some h⟩
  · rintro ⟨ha, rfl⟩
    cases hf : t.parentArc a.target with
    | none => simpa using List.find?_eq_none.1 hf a ha
    | some b =>
      have hb : b.target = a.target := by simpa using List.find?_some hf
      rw [ht.eq_of_target_eq (List.mem_of_find?_eq_some hf) ha hb]

theorem parentArc_root (ht : t.Grown) : t.parentArc t.root = none := by
  refine List.find?_eq_none.2 fun a ha => ?_
  simpa using ht.target_ne_root ha

theorem exists_parentArc (ht : t.Grown) {s : ι} (hs : s ∈ t.states) (hne : s ≠ t.root) :
    ∃ a, t.parentArc s = some a := by
  obtain ⟨a, ha, rfl⟩ := (mem_states.1 hs).resolve_left hne
  exact ⟨a, ht.parentArc_eq_some_iff.2 ⟨ha, rfl⟩⟩

end Grown

/-! ## Order, depth and root paths -/

variable [DecidableEq ι]

theorem position_attach_of_mem {t : Tree ι} {a : Arc ι} {s : ι} (hs : s ∈ t.states) :
    (t.attach a).position s = t.position s := by
  rw [position, states_attach, List.idxOf_append_of_mem hs, position]

theorem position_attach_target {t : Tree ι} {a : Arc ι} (ha : a.target ∉ t.states) :
    (t.attach a).position a.target = t.states.length := by
  rw [position, states_attach, List.idxOf_append_of_notMem ha, List.idxOf_cons_self, Nat.add_zero]

theorem depth_attach (t : Tree ι) (b : Arc ι) (s : ι) :
    (t.attach b).depth s = if b.target = s then t.depth b.source + 1 else t.depth s := by
  simp [depth, depthAmong]

theorem rootPath_attach (t : Tree ι) (b : Arc ι) (s : ι) :
    (t.attach b).rootPath s =
      if b.target = s then t.rootPath b.source ++ [b] else t.rootPath s := by
  simp [rootPath, rootPathAmong]

namespace Grown

variable {t : Tree ι}

/-- An arc starts at a state that was discovered before its target. -/
theorem position_source_lt (ht : t.Grown) {a : Arc ι} (h : a ∈ t.arcs) :
    t.position a.source < t.position a.target := by
  induction ht with
  | single root => simp at h
  | @attach t b ht hb hnew ih =>
    rw [attach_arcs, List.mem_append, List.mem_singleton] at h
    rcases h with h | rfl
    · rw [position_attach_of_mem (ht.source_mem h), position_attach_of_mem (target_mem_states h)]
      exact ih h
    · rw [position_attach_of_mem hb, position_attach_target hnew]
      exact List.idxOf_lt_length_of_mem hb

theorem depth_target (ht : t.Grown) {a : Arc ι} (h : a ∈ t.arcs) :
    t.depth a.target = t.depth a.source + 1 :=
  ht.along (f := depth) (g := fun n _ => n + 1) depth_attach a h

theorem rootPath_target (ht : t.Grown) {a : Arc ι} (h : a ∈ t.arcs) :
    t.rootPath a.target = t.rootPath a.source ++ [a] :=
  ht.along (f := rootPath) (g := fun as a => as ++ [a]) rootPath_attach a h

theorem depth_root (ht : t.Grown) : t.depth t.root = 0 := by
  induction ht with
  | single root => rfl
  | @attach t b _ _ hnew ih =>
    rw [attach_root, depth_attach, if_neg (ne_of_mem_of_not_mem t.root_mem_states hnew).symm]
    exact ih

theorem rootPath_root (ht : t.Grown) : t.rootPath t.root = [] := by
  induction ht with
  | single root => rfl
  | @attach t b _ _ hnew ih =>
    rw [attach_root, rootPath_attach, if_neg (ne_of_mem_of_not_mem t.root_mem_states hnew).symm]
    exact ih

/-- The root path of a tree state is a run to it. -/
theorem run_rootPath (ht : t.Grown) {G : Lts ι} (hG : ∀ a ∈ t.arcs, a ∈ G.arcs) :
    ∀ s ∈ t.states, G.Run t.root (t.rootPath s) s := by
  refine ht.states_induction ?_ fun a ha ih => ?_
  · rw [ht.rootPath_root]
    exact .nil _
  · rw [ht.rootPath_target ha]
    exact ih.concat (hG a ha)

theorem rootPath_subset (ht : t.Grown) : ∀ s ∈ t.states, ∀ a ∈ t.rootPath s, a ∈ t.arcs := by
  refine ht.states_induction ?_ fun b hb ih a ha => ?_
  · simp [ht.rootPath_root]
  · rw [ht.rootPath_target hb, List.mem_append, List.mem_singleton] at ha
    rcases ha with ha | rfl
    · exact ih a ha
    · exact hb

end Grown

end RegionCalculus.Tree
