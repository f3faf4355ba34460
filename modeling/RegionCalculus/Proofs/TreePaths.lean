import RegionCalculus.Proofs.Growth

/-!
# Tree paths

Two states of a grown tree climb until they meet. What they pass are the arcs that lie on the way
from the root to one of them and not to the other.

* `untilShared as bs`: the arcs of two ways to the root, in turn, up to the first arc that they share.
* `Tree.treePath t u v`: the arcs between two states, read off their root paths.
* `Grown.climb?_eq`: climbing `n` arcs cuts the last `n` arcs off the root path.
* `Grown.meet?_eq`: states of one depth meet, and pass what their root paths do not share.
* `Grown.treePath?_eq`, `Grown.mem_treePath`: the climbs between any two tree states pass the arcs
  between them, and none of them passes the root.
-/

namespace RegionCalculus
set_option autoImplicit false

variable {ι : Type} [DecidableEq ι]

/-- The arcs of two ways, in turn, up to the first arc that they share. -/
def untilShared : List (Arc ι) → List (Arc ι) → List (Arc ι)
  | a :: as, b :: bs => if a = b then [] else a :: b :: untilShared as bs
  | _, _ => []

@[simp] theorem untilShared_self (as : List (Arc ι)) : untilShared as as = [] := by
  cases as <;> simp [untilShared]

/-- The arcs between two states: the deeper one goes up to the depth of the other, then both go up until
their ways to the root run together. -/
def Tree.treePath (t : Tree ι) (u v : ι) : List (Arc ι) :=
  let up := (t.rootPath u).reverse
  let down := (t.rootPath v).reverse
  up.take (t.depth u - t.depth v) ++ down.take (t.depth v - t.depth u) ++
    untilShared (up.drop (t.depth u - t.depth v)) (down.drop (t.depth v - t.depth u))

namespace Tree.Grown

variable {t : Tree ι}

/-! ## Arcs on root paths -/

/-- The arcs on the way to a state end no deeper than the state. -/
theorem depth_le_of_mem_rootPath (ht : t.Grown) :
    ∀ s ∈ t.states, ∀ a ∈ t.rootPath s, t.depth a.target ≤ t.depth s := by
  refine ht.states_induction ?_ fun b hb ih a ha => ?_
  · simp [ht.rootPath_root]
  · have hdepth := ht.depth_target hb
    rw [ht.rootPath_target hb, List.mem_append, List.mem_singleton] at ha
    rcases ha with ha | rfl
    · have hle := ih a ha
      omega
    · exact le_rfl

/-- The last arc to a state stands on no root path that ends less deep. -/
theorem notMem_rootPath_of_depth_lt (ht : t.Grown) {s : ι} (hs : s ∈ t.states) {a : Arc ι}
    (h : t.depth s < t.depth a.target) : a ∉ t.rootPath s := by
  intro ha
  have hle := ht.depth_le_of_mem_rootPath s hs a ha
  omega

/-- A state that is not at depth zero has a parent arc, out of a state that is one step less deep. -/
theorem exists_parent_of_depth (ht : t.Grown) {s : ι} (hs : s ∈ t.states) {n : Nat}
    (hn : t.depth s = n + 1) :
    ∃ a ∈ t.arcs, t.parentArc s = some a ∧ a.target = s ∧ t.depth a.source = n ∧
      t.rootPath s = t.rootPath a.source ++ [a] := by
  have hne : s ≠ t.root := by
    rintro rfl
    rw [ht.depth_root] at hn
    omega
  obtain ⟨a, ha⟩ := ht.exists_parentArc hs hne
  obtain ⟨hmem, rfl⟩ := ht.parentArc_eq_some_iff.1 ha
  have hdepth := ht.depth_target hmem
  exact ⟨a, hmem, ha, rfl, by omega, ht.rootPath_target hmem⟩

theorem eq_root_of_depth (ht : t.Grown) {s : ι} (hs : s ∈ t.states) (h : t.depth s = 0) :
    s = t.root := by
  rcases mem_states.1 hs with rfl | ⟨a, ha, rfl⟩
  · rfl
  · have hdepth := ht.depth_target ha
    omega

/-! ## Climbing -/

/-- A climb passes the last arcs of the root path, all of them deeper than the state it reaches. -/
theorem climb?_eq (ht : t.Grown) {n : Nat} {s : ι} (hs : s ∈ t.states) (hn : n ≤ t.depth s) :
    ∃ as w, t.climb? n s = some (as, w) ∧ as.length = n ∧ w ∈ t.states ∧
      t.depth w + n = t.depth s ∧ t.rootPath s = t.rootPath w ++ as.reverse ∧
      ∀ a ∈ as, t.depth w < t.depth a.target := by
  induction n generalizing s with
  | zero => exact ⟨[], s, rfl, rfl, hs, rfl, by simp, by simp⟩
  | succ n ih =>
    obtain ⟨d, hd⟩ : ∃ d, t.depth s = d + 1 := ⟨t.depth s - 1, by omega⟩
    obtain ⟨a, ha, hparent, htarget, hsource, hpath⟩ := ht.exists_parent_of_depth hs hd
    obtain ⟨as, w, hclimb, hlength, hw, hdepth, hrest, hdeeper⟩ :=
      ih (ht.source_mem ha) (by omega)
    refine ⟨a :: as, w, ?_, ?_, hw, by omega, ?_, ?_⟩
    · simp [climb?, hparent, hclimb]
    · rw [List.length_cons, hlength]
    · rw [hpath, hrest, List.reverse_cons, List.append_assoc]
    · intro b hb
      rcases List.mem_cons.1 hb with rfl | hb
      · rw [htarget]
        omega
      · exact hdeeper b hb

/-- States of one depth meet. They pass the arcs of their root paths up to the first that these share,
that is, what lies on one root path and not on the other. -/
theorem meet?_eq (ht : t.Grown) {n : Nat} {u v : ι} (hu : u ∈ t.states) (hv : v ∈ t.states)
    (hdu : t.depth u = n) (hdv : t.depth v = n) :
    t.meet? n u v = some (untilShared (t.rootPath u).reverse (t.rootPath v).reverse) ∧
      ∀ x, x ∈ untilShared (t.rootPath u).reverse (t.rootPath v).reverse ↔
        Xor (x ∈ t.rootPath u) (x ∈ t.rootPath v) := by
  induction n generalizing u v with
  | zero =>
    obtain rfl := ht.eq_root_of_depth hu hdu
    obtain rfl := ht.eq_root_of_depth hv hdv
    exact ⟨by simp [meet?], by simp [Xor]⟩
  | succ n ih =>
    by_cases huv : u = v
    · subst huv
      exact ⟨by simp [meet?], by simp [Xor]⟩
    · obtain ⟨a, ha, hparent, htarget, hsource, hpath⟩ := ht.exists_parent_of_depth hu hdu
      obtain ⟨b, hb, hparent', htarget', hsource', hpath'⟩ := ht.exists_parent_of_depth hv hdv
      obtain ⟨hmeet, hmem⟩ := ih (ht.source_mem ha) (ht.source_mem hb) hsource hsource'
      have hne : a ≠ b := fun h => huv (by rw [← htarget, ← htarget', h])
      have hways : untilShared (t.rootPath u).reverse (t.rootPath v).reverse = a :: b ::
          untilShared (t.rootPath a.source).reverse (t.rootPath b.source).reverse := by
        rw [hpath, hpath', List.reverse_concat, List.reverse_concat, untilShared, if_neg hne]
      rw [hways]
      refine ⟨by simp [meet?, huv, hparent, hparent', hmeet], fun x => ?_⟩
      -- Both last arcs are deeper than anything on the shorter paths.
      have hau : a ∉ t.rootPath a.source := ht.notMem_rootPath_of_depth_lt (ht.source_mem ha)
        (by rw [htarget]; omega)
      have hav : a ∉ t.rootPath b.source := ht.notMem_rootPath_of_depth_lt (ht.source_mem hb)
        (by rw [htarget]; omega)
      have hbu : b ∉ t.rootPath a.source := ht.notMem_rootPath_of_depth_lt (ht.source_mem ha)
        (by rw [htarget']; omega)
      have hbv : b ∉ t.rootPath b.source := ht.notMem_rootPath_of_depth_lt (ht.source_mem hb)
        (by rw [htarget']; omega)
      rw [hpath, hpath', List.mem_cons, List.mem_cons, hmem, List.mem_append, List.mem_append,
        List.mem_singleton, List.mem_singleton]
      by_cases hxa : x = a
      · subst hxa
        simp [Xor, hne, hau, hav]
      · by_cases hxb : x = b
        · subst hxb
          simp [Xor, hxa, hbu, hbv]
        · simp [hxa, hxb]

/-- The path between two tree states is found. Its arcs are those that lie on one of the two root
paths and not on the other. -/
theorem treePath?_eq (ht : t.Grown) {u v : ι} (hu : u ∈ t.states) (hv : v ∈ t.states) :
    t.treePath? u v = some (t.treePath u v) ∧
      ∀ x, x ∈ t.treePath u v ↔ Xor (x ∈ t.rootPath u) (x ∈ t.rootPath v) := by
  obtain ⟨as, w, hclimb, hlength, hw, hdw, hpath, hdeeper⟩ :=
    ht.climb?_eq hu (n := t.depth u - t.depth v) (by omega)
  obtain ⟨bs, z, hclimb', hlength', hz, hdz, hpath', hdeeper'⟩ :=
    ht.climb?_eq hv (n := t.depth v - t.depth u) (by omega)
  obtain ⟨hmeet, hmem⟩ :=
    ht.meet?_eq (n := min (t.depth u) (t.depth v)) hw hz (by omega) (by omega)
  have hways : t.treePath u v =
      as ++ bs ++ untilShared (t.rootPath w).reverse (t.rootPath z).reverse := by
    rw [treePath, hpath, hpath', List.reverse_append, List.reverse_append, List.reverse_reverse,
      List.reverse_reverse, ← hlength, ← hlength', List.take_left, List.take_left, List.drop_left,
      List.drop_left]
  rw [hways]
  refine ⟨by simp [treePath?, hclimb, hclimb', hmeet], fun x => ?_⟩
  have hsame : t.depth w = t.depth z := by omega
  have has : x ∈ as → x ∉ t.rootPath w ∧ x ∉ t.rootPath z := fun hx =>
    ⟨ht.notMem_rootPath_of_depth_lt hw (hdeeper x hx),
      ht.notMem_rootPath_of_depth_lt hz (hsame ▸ hdeeper x hx)⟩
  have hbs : x ∈ bs → x ∉ t.rootPath w ∧ x ∉ t.rootPath z := fun hx =>
    ⟨ht.notMem_rootPath_of_depth_lt hw (hsame ▸ hdeeper' x hx),
      ht.notMem_rootPath_of_depth_lt hz (hdeeper' x hx)⟩
  -- Only the deeper one of the two states climbs before they have one depth.
  have hone : x ∈ as → x ∉ bs := by
    intro hx hx'
    have hu' := ht.depth_le_of_mem_rootPath u hu x (by rw [hpath]; simp [hx])
    have hv' := ht.depth_le_of_mem_rootPath v hv x (by rw [hpath']; simp [hx'])
    have hw' := hdeeper x hx
    omega
  rw [List.mem_append, List.mem_append, hmem, hpath, hpath', List.mem_append, List.mem_append,
    List.mem_reverse, List.mem_reverse]
  unfold Xor
  tauto

theorem mem_treePath (ht : t.Grown) {u v : ι} (hu : u ∈ t.states) (hv : v ∈ t.states) {x : Arc ι} :
    x ∈ t.treePath u v ↔ Xor (x ∈ t.rootPath u) (x ∈ t.rootPath v) :=
  (ht.treePath?_eq hu hv).2 x

theorem treePath_subset (ht : t.Grown) {u v : ι} (hu : u ∈ t.states) (hv : v ∈ t.states) :
    ∀ a ∈ t.treePath u v, a ∈ t.arcs := by
  intro a ha
  rcases (ht.mem_treePath hu hv).1 ha with ⟨hmem, _⟩ | ⟨hmem, _⟩
  · exact ht.rootPath_subset u hu a hmem
  · exact ht.rootPath_subset v hv a hmem

end Tree.Grown

end RegionCalculus
