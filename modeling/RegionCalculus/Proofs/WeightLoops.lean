import Mathlib.Data.List.Basic
import Mathlib.Data.List.GetD
import RegionCalculus.Weights

/-!
# Weights that are written event by event

Some weights are made in one go, others are written in loops that change the entries of one event after
the other. A loop that visits each event once changes every entry once, by what it does at that event.
So the loops come to the same weights as the expressions for whole lists.

* `getElem?_foldl_modify`: the entries after some turns of a loop that changes one entry per turn.
* `Weights.foldl_modify`: the weights after a whole loop.
* `Weights.Sized.accumulate_eq`: adding in place, and adding whole lists of weights.
* `Weights.ofNet_eq`, `Weights.Sized.purified_eq`: writing net weights into zero weights, which puts the
  zeros on the side of the backward weights, and overwriting both sides, which puts them on the other.
* `Weights.net_ofNet`: these weights have the net effect that was written.
-/

namespace RegionCalculus
set_option autoImplicit false

/-! ## One entry per turn -/

/-- After `n` turns the first `n` entries are changed, and no others. -/
theorem getElem?_foldl_modify (g : Nat → Int → Int) (n : Nat) (l : List Int) (j : Nat) :
    ((List.range n).foldl (fun l i => l.modify i (g i)) l)[j]? =
      l[j]?.map fun x => if j < n then g j x else x := by
  induction n with
  | zero => simp
  | succ n ih =>
    rw [List.range_succ, List.foldl_concat, List.getElem?_modify, ih, Option.map_eq_map,
      Option.map_map]
    congr 1
    funext x
    by_cases hj : j = n
    · subst hj
      simp
    · have hlt : j < n + 1 ↔ j < n := by omega
      simp [hlt, Ne.symm hj]

theorem foldl_modify_eq_mapIdx (g : Nat → Int → Int) {n : Nat} {l : List Int} (h : l.length = n) :
    (List.range n).foldl (fun l i => l.modify i (g i)) l = l.mapIdx g := by
  refine List.ext_getElem? fun j => ?_
  rw [getElem?_foldl_modify, List.getElem?_mapIdx]
  by_cases hj : j < n
  · simp only [if_pos hj]
  · rw [List.getElem?_eq_none (by omega), Option.map_none, Option.map_none]

/-- A change at every index that only looks at the entry of `v` there is a map over `v`. -/
theorem mapIdx_eq_map {g : Nat → Int → Int} {f : Int → Int} {l v : List Int}
    (hlength : l.length = v.length)
    (h : ∀ i (hi : i < l.length), g i l[i] = f (v.getD i 0)) : l.mapIdx g = v.map f := by
  refine List.ext_getElem (by simp [hlength]) fun i hi hiv => ?_
  rw [List.length_mapIdx] at hi
  rw [List.length_map] at hiv
  rw [List.getElem_mapIdx, h i hi, List.getElem_map, List.getD_eq_getElem v 0 hiv]

/-- A loop over the entries of a list is a loop over its indices. -/
theorem foldl_zipIdx {α : Type} (f : α → Int → Nat → α) (v : List Int) (a : α) :
    v.zipIdx.foldl (fun a e => f a e.1 e.2) a =
      (List.range v.length).foldl (fun a i => f a (v.getD i 0) i) a := by
  have hentries : v.zipIdx = (List.range v.length).map fun i => (v.getD i 0, i) := by
    refine List.ext_getElem (by simp) fun i hi _ => ?_
    have hlt : i < v.length := by simpa using hi
    simp [hlt]
  rw [hentries, List.foldl_map]

namespace Weights

variable {n : Nat} {w o : Weights} {v : List Int}

/-- A loop that changes the entries of one event per turn changes both sides everywhere. -/
theorem foldl_modify {step : Weights → Nat → Weights} {g h : Nat → Int → Int}
    (hstep : ∀ w i, step w i = ⟨w.backward.modify i (g i), w.forward.modify i (h i)⟩)
    (hw : w.Sized n) :
    (List.range n).foldl step w = ⟨w.backward.mapIdx g, w.forward.mapIdx h⟩ := by
  have hsides : ∀ (is : List Nat) (w : Weights), is.foldl step w =
      ⟨is.foldl (fun l i => l.modify i (g i)) w.backward,
        is.foldl (fun l i => l.modify i (h i)) w.forward⟩ := by
    intro is
    induction is with
    | nil => exact fun _ => rfl
    | cons i is ih =>
      intro w
      rw [List.foldl_cons, hstep, ih, List.foldl_cons, List.foldl_cons]
  rw [hsides, foldl_modify_eq_mapIdx g hw.backward, foldl_modify_eq_mapIdx h hw.forward]

/-! ## Adding in place -/

theorem Sized.accumulateFrom_eq (h : w.Sized n) (ho : o.Sized n) (k : Int) :
    accumulateFrom o k n w = w.addMultiple o k := by
  have hside : ∀ {l m : List Int}, l.length = n → m.length = n →
      l.mapIdx (fun i x => x + k * m.getD i 0) = List.zipWith (fun x y => x + k * y) l m := by
    intro l m hl hm
    refine List.ext_getElem (by simp [hl, hm]) fun i hi _ => ?_
    have him : i < m.length := by simpa [hl, hm] using hi
    simp [him]
  calc accumulateFrom o k n w
    _ = ⟨w.backward.mapIdx fun i x => x + k * o.backward.getD i 0,
          w.forward.mapIdx fun i x => x + k * o.forward.getD i 0⟩ := foldl_modify (fun _ _ => rfl) h
    _ = w.addMultiple o k := by
      rw [hside h.backward ho.backward, hside h.forward ho.forward, addMultiple]

/-- Nothing is added for the factor zero. -/
theorem Sized.addMultiple_zero (h : w.Sized n) (ho : o.Sized n) : w.addMultiple o 0 = w := by
  have hside : ∀ {l m : List Int}, l.length = m.length →
      List.zipWith (fun x y => x + 0 * y) l m = l := by
    intro l m hlen
    refine List.ext_getElem (by simp [hlen]) fun i _ _ => ?_
    rw [List.getElem_zipWith, Int.zero_mul, Int.add_zero]
  rw [addMultiple, hside (h.backward.trans ho.backward.symm), hside (h.forward.trans ho.forward.symm)]

/-- Adding in place event by event, where the factor zero is left out and a negative one swaps sides,
comes to the same as adding whole lists of weights, where any factor that is not positive swaps sides. -/
theorem Sized.accumulate_eq (h : w.Sized n) (ho : o.Sized n) (k : Int) :
    accumulate n w o k = w.addScaled o k := by
  unfold accumulate addScaled
  by_cases hzero : k = 0
  · subst hzero
    rw [if_pos rfl, if_neg (by omega)]
    exact (h.addMultiple_zero ho.reverse).symm
  · by_cases hneg : k < 0
    · rw [if_neg hzero, if_pos hneg, if_neg (by omega)]
      exact h.accumulateFrom_eq ho.reverse (-k)
    · rw [if_neg hzero, if_neg hneg, if_pos (by omega)]
      exact h.accumulateFrom_eq ho k

/-! ## Writing net weights -/

theorem writeNet_eq (w : Weights) (i : Nat) (x : Int) :
    w.writeNet i x = ⟨w.backward.modify i fun y => if 0 < x then y else -x,
      w.forward.modify i fun y => if 0 < x then x else y⟩ := by
  have hsame : ∀ l : List Int, l.modify i (fun y => y) = l := List.modify_id i
  unfold writeNet
  by_cases hx : 0 < x
  · simp only [if_pos hx, List.set_eq_modify, hsame]
  · simp only [if_neg hx, List.set_eq_modify, hsame]

theorem overwriteNet_eq (w : Weights) (i : Nat) (x : Int) :
    w.overwriteNet i x = ⟨w.backward.modify i fun _ => max (-x) 0,
      w.forward.modify i fun _ => max x 0⟩ := by
  unfold overwriteNet
  split
  · rename_i hx
    rw [Int.max_eq_right (show -x ≤ 0 by omega), Int.max_eq_left hx, List.set_eq_modify,
      List.set_eq_modify]
  · rename_i hx
    rw [Int.max_eq_left (show 0 ≤ -x by omega), Int.max_eq_right (show x ≤ 0 by omega),
      List.set_eq_modify, List.set_eq_modify]

/-- A net weight that is not positive becomes a backward weight, so that zeros are written there; the
forward weight is zero already. -/
theorem ofNet_eq (v : List Int) :
    ofNet v = ⟨v.map fun x => max (-x) 0, v.map fun x => max x 0⟩ := by
  have hloop := foldl_zipIdx (fun w x i => w.writeNet i x) v (zero v.length)
  rw [foldl_modify (fun w i => w.writeNet_eq i (v.getD i 0)) (sized_zero v.length)] at hloop
  have hside : ∀ {g : Nat → Int → Int} {f : Int → Int},
      (∀ i, g i 0 = f (v.getD i 0)) → (List.replicate v.length 0).mapIdx g = v.map f := by
    intro g f hzero
    refine mapIdx_eq_map List.length_replicate fun i hi => ?_
    rw [List.getElem_replicate, hzero]
  rw [ofNet, hloop, zero, Weights.mk.injEq]
  exact ⟨hside fun i => by omega, hside fun i => by omega⟩

/-- Overwriting both sides by the net weights, where zeros count as forward weights, leaves the weights
that have these net weights and never both take and put. -/
theorem Sized.purified_eq (h : w.Sized n) : w.purified = ofNet w.net := by
  have hlength := h.length_net
  have hside : ∀ {l : List Int} (f : Int → Int), l.length = n →
      l.mapIdx (fun i _ => f (w.net.getD i 0)) = w.net.map f :=
    fun f hl => mapIdx_eq_map (hl.trans hlength.symm) fun _ _ => rfl
  have hloop := foldl_zipIdx (fun w x i => w.overwriteNet i x) w.net w
  rw [hlength, foldl_modify (fun u i => u.overwriteNet_eq i (w.net.getD i 0)) h,
    hside (fun x => max (-x) 0) h.backward, hside (fun x => max x 0) h.forward] at hloop
  exact hloop.trans (ofNet_eq w.net).symm

/-- The weights of a given net effect have it. -/
@[simp] theorem net_ofNet (v : List Int) : (ofNet v).net = v := by
  rw [ofNet_eq]
  induction v with
  | nil => rfl
  | cons x v ih =>
    simp only [net, List.map_cons, List.zipWith_cons_cons, List.cons.injEq] at ih ⊢
    exact ⟨by omega, ih⟩

theorem sized_ofNet (v : List Int) : (ofNet v).Sized v.length := by
  rw [ofNet_eq]
  exact ⟨List.length_map _, List.length_map _⟩

end Weights

end RegionCalculus
