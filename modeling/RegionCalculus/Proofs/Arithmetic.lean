import RegionCalculus.Proofs.Construction

/-!
# The arithmetic of weights

What the steps of a builder do to the length of the weights, to their signs and to their net effect.

* `Weights.Sized.addLoop`, `accumulate`, `purified`: no step changes the length.
* `Weights.signs_addScaled`, `signs_ofNet`: sums of weights that are not negative are not negative,
  whatever the factor, and neither are purified weights.
* `Weights.net_addLoop`, `getD_net_addScaled`: the net effect ignores loops and adds up.
-/

namespace RegionCalculus
set_option autoImplicit false

theorem getD_zipWith {f : Int → Int → Int} (hf : f 0 0 = 0) {l m : List Int}
    (h : l.length = m.length) (i : Nat) :
    (List.zipWith f l m).getD i 0 = f (l.getD i 0) (m.getD i 0) := by
  by_cases hi : i < l.length
  · have hm : i < m.length := h ▸ hi
    simp [List.getD_eq_getElem?_getD, hi, hm]
  · have hm : ¬ i < m.length := h ▸ hi
    simp [List.getD_eq_getElem?_getD, hi, hm, hf]

/-- A list is given by its length and its entries. -/
theorem eq_map_range {l : List Int} {n : Nat} {f : Nat → Int} (hlen : l.length = n)
    (h : ∀ i, l.getD i 0 = f i) : l = (List.range n).map f := by
  refine List.ext_getElem (by simp [hlen]) fun i hi _ => ?_
  rw [List.getElem_map, List.getElem_range, ← h i, List.getD_eq_getElem _ _ hi]

theorem eq_of_getD {l m : List Int} {n : Nat} (hl : l.length = n) (hm : m.length = n)
    (h : ∀ i, l.getD i 0 = m.getD i 0) : l = m :=
  (eq_map_range hl h).trans (eq_map_range hm fun _ => rfl).symm

namespace Weights

variable {n : Nat} {w o : Weights}

/-! ## Lengths -/

theorem Sized.addLoop (h : w.Sized n) (i : Nat) (k : Int) : (w.addLoop i k).Sized n where
  backward := (List.length_modify _ _ _).trans h.backward
  forward := (List.length_modify _ _ _).trans h.forward

theorem Sized.addMultiple (h : w.Sized n) (ho : o.Sized n) (k : Int) :
    (w.addMultiple o k).Sized n where
  backward := by rw [Weights.addMultiple, List.length_zipWith, h.backward, ho.backward, Nat.min_self]
  forward := by rw [Weights.addMultiple, List.length_zipWith, h.forward, ho.forward, Nat.min_self]

theorem Sized.addScaled (h : w.Sized n) (ho : o.Sized n) (k : Int) : (w.addScaled o k).Sized n := by
  unfold Weights.addScaled
  split
  · exact h.addMultiple ho k
  · exact h.addMultiple ho.reverse (-k)

theorem Sized.accumulate (h : w.Sized n) (ho : o.Sized n) (k : Int) :
    (accumulate n w o k).Sized n := by
  rw [h.accumulate_eq ho]
  exact h.addScaled ho k

theorem Sized.ofNet_net (h : w.Sized n) : (ofNet w.net).Sized n := by
  have hnet := sized_ofNet w.net
  rwa [h.length_net] at hnet

theorem Sized.purified (h : w.Sized n) : w.purified.Sized n := by
  rw [h.purified_eq]
  exact h.ofNet_net

/-- No times a region is nothing. -/
theorem Sized.addScaled_zero (h : w.Sized n) (ho : o.Sized n) : w.addScaled o 0 = w :=
  h.addMultiple_zero ho.reverse

/-! ## Signs -/

theorem nonneg_addMultiple {l m : List Int} (hl : ∀ x ∈ l, 0 ≤ x) (hm : ∀ x ∈ m, 0 ≤ x) {k : Int}
    (hk : 0 ≤ k) : ∀ x ∈ List.zipWith (fun x y => x + k * y) l m, 0 ≤ x := by
  intro x hx
  obtain ⟨i, hi, rfl⟩ := List.getElem_of_mem hx
  rw [List.length_zipWith, Nat.lt_min] at hi
  rw [List.getElem_zipWith]
  have hleft := hl _ (List.getElem_mem hi.1)
  have hright := Int.mul_nonneg hk (hm _ (List.getElem_mem hi.2))
  omega

theorem signs_addScaled (hw : (∀ x ∈ w.backward, 0 ≤ x) ∧ ∀ x ∈ w.forward, 0 ≤ x)
    (ho : (∀ x ∈ o.backward, 0 ≤ x) ∧ ∀ x ∈ o.forward, 0 ≤ x) (k : Int) :
    (∀ x ∈ (w.addScaled o k).backward, 0 ≤ x) ∧ ∀ x ∈ (w.addScaled o k).forward, 0 ≤ x := by
  unfold addScaled
  split
  · rename_i hk
    exact ⟨nonneg_addMultiple hw.1 ho.1 hk.le, nonneg_addMultiple hw.2 ho.2 hk.le⟩
  · rename_i hk
    have hk' : 0 ≤ -k := by omega
    exact ⟨nonneg_addMultiple hw.1 ho.2 hk', nonneg_addMultiple hw.2 ho.1 hk'⟩

theorem signs_ofNet (v : List Int) :
    (∀ x ∈ (ofNet v).backward, 0 ≤ x) ∧ ∀ x ∈ (ofNet v).forward, 0 ≤ x := by
  rw [ofNet_eq]
  constructor
  · intro x hx
    obtain ⟨y, _, rfl⟩ := List.mem_map.1 hx
    exact Int.le_max_right _ _
  · intro x hx
    obtain ⟨y, _, rfl⟩ := List.mem_map.1 hx
    exact Int.le_max_right _ _

theorem Sized.signs_purified (h : w.Sized n) :
    (∀ x ∈ w.purified.backward, 0 ≤ x) ∧ ∀ x ∈ w.purified.forward, 0 ≤ x := by
  rw [h.purified_eq]
  exact signs_ofNet w.net

/-! ## Net effects -/

theorem Sized.getD_net (h : w.Sized n) (i : Nat) :
    w.net.getD i 0 = w.forward.getD i 0 - w.backward.getD i 0 :=
  getD_zipWith rfl (h.forward.trans h.backward.symm) i

theorem getD_modify (l : List Int) (i j : Nat) (k : Int) :
    (l.modify i (· + k)).getD j 0 = l.getD j 0 + if i = j ∧ j < l.length then k else 0 := by
  rw [List.getD_eq_getElem?_getD, List.getD_eq_getElem?_getD, List.getElem?_modify]
  by_cases hj : j < l.length
  · by_cases hi : i = j <;> simp [hi, hj]
  · simp [hj]

/-- A loop adds the same to both sides. -/
theorem net_addLoop (h : w.Sized n) (i : Nat) (k : Int) : (w.addLoop i k).net = w.net := by
  refine eq_of_getD (h.addLoop i k).length_net h.length_net fun j => ?_
  rw [(h.addLoop i k).getD_net, h.getD_net, addLoop, raise, getD_modify, getD_modify, h.backward, h.forward]
  omega

theorem getD_net_addMultiple (h : w.Sized n) (ho : o.Sized n) (k : Int) (i : Nat) :
    (w.addMultiple o k).net.getD i 0 = w.net.getD i 0 + k * o.net.getD i 0 := by
  rw [(h.addMultiple ho k).getD_net, h.getD_net, ho.getD_net, addMultiple,
    getD_zipWith (by simp) (h.backward.trans ho.backward.symm),
    getD_zipWith (by simp) (h.forward.trans ho.forward.symm)]
  ring

theorem getD_net_addScaled (h : w.Sized n) (ho : o.Sized n) (k : Int) (i : Nat) :
    (w.addScaled o k).net.getD i 0 = w.net.getD i 0 + k * o.net.getD i 0 := by
  unfold addScaled
  split
  · exact getD_net_addMultiple h ho k i
  · rw [getD_net_addMultiple h ho.reverse, ho.reverse.getD_net, ho.getD_net]
    simp only [reverse]
    ring

/-! ## Pure weights -/

theorem Sized.min_getD (h : w.Sized n) (hpure : w.isPure = true) (i : Nat) :
    min (w.backward.getD i 0) (w.forward.getD i 0) = 0 := by
  have hzero : ∀ x ∈ List.zipWith min w.backward w.forward, x = 0 := by simpa [isPure] using hpure
  have hmin := getD_zipWith (f := min) rfl (h.backward.trans h.forward.symm) i
  rw [← hmin]
  by_cases hi : i < (List.zipWith min w.backward w.forward).length
  · rw [List.getD_eq_getElem _ _ hi]
    exact hzero _ (List.getElem_mem hi)
  · exact List.getD_eq_default _ _ (Nat.not_lt.1 hi)

theorem isPure_ofNet (v : List Int) : (ofNet v).isPure = true := by
  rw [ofNet_eq]
  induction v with
  | nil => rfl
  | cons x v ih =>
    have hmin : min (max (-x) 0) (max x 0) = 0 := by omega
    simp only [isPure, List.map_cons, List.zipWith_cons_cons, List.all_cons, hmin,
      Bool.and_eq_true, decide_eq_true_eq, true_and] at ih ⊢
    exact ih

end Weights

end RegionCalculus
