import RegionCalculus.Proofs.LeastMarkings
import RegionCalculus.Proofs.Purification

/-!
# Sums of regions are linear

The net effect of a sum of regions is the sum of the net effects, whatever the sign of the factor. What
a region answers about vectors, cycles and markings depends on its net effect only, so all of it is
linear, but for the normal marking: there the bounds of the summands add up to a bound of the sum.

* `Weights.net_addScaled`: the net effect of a sum.
* `dot_combine`, `weightOf_combine`, `Lts.Potential.combine`: what is read off net effects is linear.
* `Session.Combines p₁ p₂ k p₃`: the net effect of `p₃` is that of `p₁` and `k` times that of `p₂`.
* `Session.Linear`: what this comes to for answers; `Combines.normal_le`, `Combines.consistent`.
* `Session.sum_linear`: this for the sum of any two regions, as long as the system stays as it is.
-/

namespace RegionCalculus
set_option autoImplicit false

/-! ## Net effects -/

/-- Adds `k` times the entries of `m` to the entries of `l`. -/
def combine (l m : List Int) (k : Int) : List Int := List.zipWith (fun x y => x + k * y) l m

theorem getD_combine {l m : List Int} (h : l.length = m.length) (k : Int) (i : Nat) :
    (combine l m k).getD i 0 = l.getD i 0 + k * m.getD i 0 := getD_zipWith (by simp) h i

theorem Weights.net_addScaled {n : Nat} {w o : Weights} (h : w.Sized n) (ho : o.Sized n) (k : Int) :
    (w.addScaled o k).net = combine w.net o.net k := by
  have hlen : (combine w.net o.net k).length = n := by
    rw [combine, List.length_zipWith, h.length_net, ho.length_net, Nat.min_self]
  refine eq_of_getD (h.addScaled ho k).length_net hlen fun i => ?_
  rw [getD_net_addScaled h ho, getD_combine (h.length_net.trans ho.length_net.symm)]

theorem dot_combine {l m : List Int} (h : l.length = m.length) (k : Int) (v : List Int) :
    dot v (combine l m k) = dot v l + k * dot v m := by
  induction v generalizing l m with
  | nil => simp
  | cons x v ih =>
    cases l with
    | nil =>
      obtain rfl : m = [] := List.length_eq_zero_iff.1 h.symm
      simp [combine]
    | cons y l =>
      cases m with
      | nil => cases h
      | cons z m =>
        have hrest := ih (Nat.succ.inj h)
        rw [combine, List.zipWith_cons_cons, dot_cons, dot_cons, dot_cons, ← combine, hrest]
        ring

theorem weightOf_combine {l m : List Int} (h : l.length = m.length) (k : Int)
    (events : List String) (e : String) :
    weightOf events (combine l m k) e = weightOf events l e + k * weightOf events m e :=
  getD_combine h k _

namespace Lts

variable {ι : Type} {G : Lts ι} {root : ι} {events : List String}

theorem treePotential_combine [DecidableEq ι] {l m : List Int} (h : l.length = m.length) (k : Int)
    (s : ι) :
    G.treePotential root events (combine l m k) s =
      G.treePotential root events l s + k * G.treePotential root events m s :=
  dot_combine h k _

/-- Potentials add up, and so do the weights that they belong to. -/
theorem Potential.combine {w w' w'' : String → Int} {φ φ' φ'' : ι → Int} {k : Int}
    (h : G.Potential root w φ) (h' : G.Potential root w' φ')
    (hw : ∀ e, w'' e = w e + k * w' e) (hφ : ∀ s, φ'' s = φ s + k * φ' s) :
    G.Potential root w'' φ'' := by
  intro a ha hreach
  rw [hφ, hφ, hw, h a ha hreach, h' a ha hreach]
  ring

end Lts

namespace Session

variable {u : UtilityId} {S : System} {U : RegionUtility} {s s' : Session} {init : Value}
  {p p₁ p₂ p₃ : PlacedRegion} {k : Int} {b₁ b₂ b₃ watched : Bool} {m₁ m₂ m₃ n₁ n₂ n₃ : Int}

/-! ## Three regions -/

/-- Over the same events, the net effect of `p₃` is that of `p₁` and `k` times that of `p₂`. -/
structure Combines (p₁ p₂ : PlacedRegion) (k : Int) (p₃ : PlacedRegion) : Prop where
  events₁ : p₃.holding.utility.events = p₁.holding.utility.events
  events₂ : p₃.holding.utility.events = p₂.holding.utility.events
  length : p₁.holding.region.weights.net.length = p₂.holding.region.weights.net.length
  net : p₃.holding.region.weights.net =
    combine p₁.holding.region.weights.net p₂.holding.region.weights.net k

theorem Combines.potential (h : Combines p₁ p₂ k p₃) (S : System) (init : Value) (q : Key) :
    p₃.potential S init q = p₁.potential S init q + k * p₂.potential S init q := by
  rw [PlacedRegion.potential, PlacedRegion.potential, PlacedRegion.potential, ← h.events₁,
    ← h.events₂, h.net]
  exact Lts.treePotential_combine h.length k q

theorem Combines.evaluate (h : Combines p₁ p₂ k p₃) (v : List Int) :
    p₃.holding.region.evaluate v =
      p₁.holding.region.evaluate v + k * p₂.holding.region.evaluate v := by
  rw [Region.evaluate, h.net]
  exact dot_combine h.length k v

theorem Combines.consistent (h : Combines p₁ p₂ k p₃)
    (h₁ : Answers watched s S init p₁ b₁ m₁ n₁) (h₂ : Answers watched s S init p₂ b₂ m₂ n₂)
    (h₃ : Answers watched s S init p₃ b₃ m₃ n₃) (hb₁ : b₁ = true) (hb₂ : b₂ = true) :
    b₃ = true := by
  refine h₃.consistent_iff.2 ((h₁.consistent_iff.1 hb₁).combine (h₂.consistent_iff.1 hb₂)
    (fun e => ?_) (h.potential S init))
  rw [PlacedRegion.net, PlacedRegion.net, PlacedRegion.net, ← h.events₁, ← h.events₂, h.net]
  exact weightOf_combine h.length k _ e

/-- The bounds of the summands add up to a bound of the sum. -/
theorem Combines.normal_le (h : Combines p₁ p₂ k p₃) (hk : 0 ≤ k)
    (h₁ : Answers watched s S init p₁ b₁ m₁ n₁) (h₂ : Answers watched s S init p₂ b₂ m₂ n₂)
    (h₃ : Answers watched s S init p₃ b₃ m₃ n₃) : n₃ ≤ n₁ + k * n₂ := by
  obtain ⟨hn₁, hbound₁⟩ := (h₁.least n₁).1 le_rfl
  obtain ⟨hn₂, hbound₂⟩ := (h₂.least n₂).1 le_rfl
  refine (h₃.least _).2 ⟨Int.add_nonneg hn₁ (Int.mul_nonneg hk hn₂), fun q hq => ?_⟩
  have hsplit : n₁ + k * n₂ + p₃.potential S init q =
      (n₁ + p₁.potential S init q) + k * (n₂ + p₂.potential S init q) := by
    rw [h.potential]
    ring
  rw [hsplit]
  exact Int.add_nonneg (hbound₁ q hq) (Int.mul_nonneg hk (hbound₂ q hq))

/-! ## Answers -/

/-- The answers of `p₃` are those of `p₁` and `k` times those of `p₂`: about vectors always, about cycles
if both are consistent, and about markings if `k` is not negative, the normal marking being no more. -/
structure Linear (watched : Bool) (s : Session) (S : System) (init : Value) (p₁ p₂ : PlacedRegion)
    (k : Int) (p₃ : PlacedRegion) : Prop where
  evaluate : ∀ v : List Int, v.length = p₃.holding.utility.size → ∃ x y,
    (tellRegion watched p₁ (.evaluate (v.map .integer)) s).answer = .ok (.number x) ∧
    (tellRegion watched p₂ (.evaluate (v.map .integer)) s).answer = .ok (.number y) ∧
    (tellRegion watched p₃ (.evaluate (v.map .integer)) s).answer = .ok (.number (x + k * y))
  consistent : ∃ b₁ b₂ b₃, (tellRegion watched p₁ .isConsistent s).answer = .ok (.truth b₁) ∧
    (tellRegion watched p₂ .isConsistent s).answer = .ok (.truth b₂) ∧
    (tellRegion watched p₃ .isConsistent s).answer = .ok (.truth b₃) ∧
    (b₁ = true → b₂ = true → b₃ = true)
  normal : 0 ≤ k → ∃ n₁ n₂ n₃,
    (tellRegion watched p₁ .normalMarking s).answer = .ok (.number n₁) ∧
    (tellRegion watched p₂ .normalMarking s).answer = .ok (.number n₂) ∧
    (tellRegion watched p₃ .normalMarking s).answer = .ok (.number n₃) ∧ n₃ ≤ n₁ + k * n₂
  marking : 0 ≤ k → ∃ m₁ m₂,
    (tellRegion watched p₁ .initialMarking s).answer = .ok (.number m₁) ∧
    (tellRegion watched p₂ .initialMarking s).answer = .ok (.number m₂) ∧
    ∀ slot, ∃ shown p₄ s',
      (tellRegion watched p₃ (.withMarking (.integer (m₁ + k * m₂)) slot) s).answer =
        .ok (.text shown) ∧
      (tellRegion watched p₃ (.withMarking (.integer (m₁ + k * m₂)) slot) s).state = s' ∧
      s'.region? s.regions.length = some p₄ ∧
      ∀ v : Value, S.lts.Reach init.key v.key → ∃ x y,
        (tellRegion watched p₁ (.markingOf v) s).answer = .ok (.number x) ∧
        (tellRegion watched p₂ (.markingOf v) s).answer = .ok (.number y) ∧
        (tellRegion watched p₄ (.markingOf v) s').answer = .ok (.number (x + k * y))

theorem tellRegion_evaluate {v : List Int} (hv : v.length = p.holding.utility.size)
    (watched : Bool) (s : Session) :
    (tellRegion watched p (.evaluate (v.map .integer)) s).answer =
      .ok (.number (p.holding.region.evaluate v)) := by
  have hcount : (v.map Value.integer).map Value.count = v := by
    rw [List.map_map]
    exact List.map_id v
  have hanswer : p.holding.region.evaluate? p.holding.utility.size v =
      .ok (p.holding.region.evaluate v) := if_pos hv
  rw [tellRegion, hcount, hanswer]
  rfl

theorem Answers.initial_nonneg (h : Answers watched s S init p b₁ m₁ n₁) {events : Nat}
    (hp : p.holding.region.WellFormed events) : 0 ≤ m₁ := by
  rw [h.given]
  cases hgiven : p.holding.region.given with
  | none => exact ((h.least n₁).1 le_rfl).1
  | some g => exact hp.marking g (by rw [Region.marking?, hgiven]; rfl)

theorem Settled.linear (hs : s.Settled u S U) (hS : S.lts.Valid) (hi : S.initial? = .ok init)
    (hmade : s.WellMade) {r₁ r₂ r₃ : RegionId} (hp₁ : s.region? r₁ = some p₁)
    (hp₂ : s.region? r₂ = some p₂) (hp₃ : s.region? r₃ = some p₃)
    (hu₁ : p₁.holding.region.utility = u) (hu₂ : p₂.holding.region.utility = u)
    (hu₃ : p₃.holding.region.utility = u) (h : Combines p₁ p₂ k p₃) (watched : Bool) :
    Linear watched s S init p₁ p₂ k p₃ := by
  obtain ⟨b₁, m₁, n₁, h₁⟩ := hs.answers watched hS hi hp₁ hu₁
  obtain ⟨b₂, m₂, n₂, h₂⟩ := hs.answers watched hS hi hp₂ hu₂
  obtain ⟨b₃, m₃, n₃, h₃⟩ := hs.answers watched hS hi hp₃ hu₃
  refine ⟨fun v hv => ⟨p₁.holding.region.evaluate v, p₂.holding.region.evaluate v, ?_, ?_, ?_⟩,
    ⟨b₁, b₂, b₃, h₁.consistent, h₂.consistent, h₃.consistent, h.consistent h₁ h₂ h₃⟩,
    fun hk => ⟨n₁, n₂, n₃, h₁.normal, h₂.normal, h₃.normal, h.normal_le hk h₁ h₂ h₃⟩,
    fun hk => ⟨m₁, m₂, h₁.initial, h₂.initial, fun slot => ?_⟩⟩
  · exact tellRegion_evaluate (hv.trans (congrArg List.length h.events₁)) watched s
  · exact tellRegion_evaluate (hv.trans (congrArg List.length h.events₂)) watched s
  · rw [tellRegion_evaluate hv, h.evaluate]
  · have hnonneg : 0 ≤ m₁ + k * m₂ := Int.add_nonneg (h₁.initial_nonneg (hmade.regions _ _ hp₁))
      (Int.mul_nonneg hk (h₂.initial_nonneg (hmade.regions _ _ hp₂)))
    obtain ⟨shown, p₄, hshown, hp₄, hmarking⟩ :=
      hs.marked_answers hS hi hp₃ hu₃ (hmade.regions _ _ hp₃) hnonneg watched slot
    refine ⟨shown, p₄, _, hshown, rfl, hp₄, fun v hv =>
      ⟨_, _, h₁.marking v hv, h₂.marking v hv, ?_⟩⟩
    rw [hmarking v hv, h.potential]
    congr 2
    ring

/-! ## Sums -/

theorem combines_of_addScaled (hs : s.Reached) {r₁ r₂ r₃ : RegionId}
    (hp₁ : s.region? r₁ = some p₁) (hp₂ : s.region? r₂ = some p₂) (hp₃ : s.region? r₃ = some p₃)
    (hu₁ : p₁.holding.region.utility = u) (hu₂ : p₂.holding.region.utility = u)
    (hu₃ : p₃.holding.region.utility = u)
    (hw : p₃.holding.region.weights =
      p₁.holding.region.weights.addScaled p₂.holding.region.weights k) :
    Combines p₁ p₂ k p₃ := by
  have hplaced := (region?_eq_some_iff.1 hp₃).2.2
  have hU₁ := (owner_eq hplaced hp₁ (hu₁.trans hu₃.symm)).1
  have hU₂ := (owner_eq hplaced hp₂ (hu₂.trans hu₃.symm)).1
  have hsized₁ := (hs.wellMade.regions _ _ hp₁).sized
  have hsized₂ := (hs.wellMade.regions _ _ hp₂).sized
  rw [hU₁] at hsized₁
  rw [hU₂] at hsized₂
  exact
    { events₁ := congrArg RegionUtility.events hU₁.symm
      events₂ := congrArg RegionUtility.events hU₂.symm
      length := hsized₁.length_net.trans hsized₂.length_net.symm
      net := by rw [hw, Weights.net_addScaled hsized₁ hsized₂] }

/-- As long as the system of a utility stays as it is, the sum of a region with any multiple of another
one answers as the sum of their answers. -/
theorem sum_linear {on other : SlotName} {q : PlacedRegion} (watched : Bool) (hs : s.Steady u S)
    (hi : S.initial? = .ok init) (hp : s.regionIn? on = some p) (hu : p.holding.region.utility = u)
    (hq : s.regionIn? other = some q) (hu' : q.holding.region.utility = u) (k : Int)
    (a : SlotName) :
    ∃ shown i, (step watched (addTo on other k a) s).1.answer = .ok (.text shown) ∧
      (step watched (addTo on other k a) s).2.slots.lookup a = some (.region i) ∧
      ∀ s', (step watched (addTo on other k a) s).2.Later s' → s'.Steady u S →
        ∃ p₁ p₂ p₃, s'.region? p.id = some p₁ ∧ s'.region? q.id = some p₂ ∧
          s'.region? i = some p₃ ∧ ∀ watched, Linear watched s' S init p₁ p₂ k p₃ := by
  obtain ⟨events, hready⟩ := hs.ready
  obtain ⟨⟨shown, hshown⟩, i, R, hR, hw, hputs⟩ := hready.puts_sum (stands_of_regionIn? hp)
    (stands_of_regionIn? hq) hu hu' watched k a
  refine ⟨shown, i, hshown, hputs.slot.slot, fun s' hlater hs' => ?_⟩
  obtain ⟨_, _, _, hsum⟩ := (hready.toRegion watched on _).placed hputs.slot hR
  have hreached : (step watched (addTo on other k a) s).2.Reached := .step watched _ hs.reached
  have hbefore : s.Later s' := (later_step watched _ s).trans hlater
  obtain ⟨p₁, hp₁, h₁⟩ := hbefore.region? hs.reached (region?_of_regionIn? hp)
  obtain ⟨p₂, hp₂, h₂⟩ := hbefore.region? hs.reached (region?_of_regionIn? hq)
  obtain ⟨p₃, hp₃, h₃⟩ := hlater.region? hreached (region?_of_regionIn? hsum)
  refine ⟨p₁, p₂, p₃, hp₁, hp₂, hp₃, fun watched => ?_⟩
  have hweights : p₃.holding.region.weights =
      p₁.holding.region.weights.addScaled p₂.holding.region.weights k := by
    rw [h₁.weights, h₂.weights, h₃.weights]
    exact hw
  have hu₁ := h₁.utility.trans hu
  have hu₂ := h₂.utility.trans hu'
  have hu₃ := h₃.utility.trans hR
  obtain ⟨U, hU⟩ := hs'.settled
  exact hU.linear hs'.valid hi hs'.reached.wellMade hp₁ hp₂ hp₃ hu₁ hu₂ hu₃
    (combines_of_addScaled hs'.reached hp₁ hp₂ hp₃ hu₁ hu₂ hu₃ hweights) watched

theorem sum_linear_craft :
    craftSession.Steady 0 ringSystem ∧ ringSystem.initial? = .ok (.text "s0") ∧
      craftSession.regionIn? "region" = some ringRegion ∧
      craftSession.regionIn? "other" = some craftRegion ∧
      ∃ shown i, (step false (addTo "region" "other" 3 "sum") craftSession).1.answer =
          .ok (.text shown) ∧
        (step false (addTo "region" "other" 3 "sum") craftSession).2.slots.lookup "sum" =
          some (.region i) ∧
        ∀ s', (step false (addTo "region" "other" 3 "sum") craftSession).2.Later s' →
          s'.Steady 0 ringSystem → ∃ p₁ p₂ p₃, s'.region? 0 = some p₁ ∧ s'.region? 1 = some p₂ ∧
            s'.region? i = some p₃ ∧
            ∀ watched, Linear watched s' ringSystem (.text "s0") p₁ p₂ 3 p₃ := by
  have hp : craftSession.regionIn? "region" = some ringRegion := rfl
  have hq : craftSession.regionIn? "other" = some craftRegion := rfl
  exact ⟨steady_craftSession, rfl, hp, hq,
    sum_linear false steady_craftSession rfl hp rfl hq rfl 3 "sum"⟩

end Session

end RegionCalculus
