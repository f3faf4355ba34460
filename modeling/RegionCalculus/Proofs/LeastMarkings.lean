import RegionCalculus.Proofs.ConsistentRegions
import RegionCalculus.Proofs.WellFormed

/-!
# Least markings

The normal marking of a region is the least initial marking with which no reachable state has a
negative marking, and with it some reachable state has the marking zero. Which way the spanning tree
takes to a state plays no part in this, so the region need not be consistent.

* `Region.marked R m`: the region `R` with the initial marking `m`.
* `Session.withMarking_apply`, `Settled.marked_answers`: a region with another marking is a new one,
  and its markings are those of the old one but for the initial marking.
* `Session.Answers.attained`: the least bound for the potentials is attained.
* `Session.normal_marking_is_least`: what this says of the regions that markings make.
-/

namespace RegionCalculus
set_option autoImplicit false

/-! ## Regions with another marking -/

namespace Region

variable {R : Region} {events : Nat} {m : Int}

def marked (R : Region) (m : Int) : Region :=
  { utility := R.utility, weights := R.weights, given := some m }

theorem withMarking?_eq (hR : R.WellFormed events) (hm : 0 ≤ m) :
    R.withMarking? events (.integer m) = .ok (R.marked m) := by
  have hgiven : ∀ k, some m = some k → 0 ≤ k := fun k hk => Option.some.inj hk ▸ hm
  exact ofWeights?_eq hR.sized hR.signs hgiven

end Region

namespace Session

variable {u : UtilityId} {S : System} {U : RegionUtility} {s : Session} {r : RegionId}
  {p : PlacedRegion} {init : Value} {m n : Int} {b : Bool} {watched : Bool}

theorem withMarking_apply (hp : p.holding.region.WellFormed p.holding.utility.size) (hm : 0 ≤ m)
    (watched : Bool) (slot : Keep) :
    tellRegion watched p (.withMarking (.integer m) slot) s =
      produce (p.holding.region.marked m) slot s := by
  rw [tellRegion, Region.withMarking?_eq hp hm]
  rfl

/-- The region with the number `i` that differs from `p` in its initial marking. -/
def PlacedRegion.marked (p : PlacedRegion) (i : RegionId) (m : Int) : PlacedRegion :=
  ⟨i, ⟨p.holding.region.marked m, p.holding.utility⟩, p.system⟩

/-- A region that is given a marking is found as the last one. -/
theorem region?_marked (hp : s.region? r = some p) (m : Int) (slot : Keep) :
    (produce (p.holding.region.marked m) slot s).state.region? s.regions.length =
      some (p.marked s.regions.length m) := by
  have hutility : s.utility? p.owner.id = some p.owner := (region?_eq_some_iff.1 hp).2.2
  rw [produce_apply, region?_place]
  exact region?_withRegion_new hutility rfl

/-- The marking of a state depends on the given marking and on what the tree path to it nets, which
is the same for both regions. -/
theorem Settled.marked_answers (hs : s.Settled u S U) (hS : S.lts.Valid)
    (hi : S.initial? = .ok init) (hp : s.region? r = some p)
    (hu : p.holding.region.utility = u)
    (hwell : p.holding.region.WellFormed p.holding.utility.size) (hm : 0 ≤ m) (watched : Bool)
    (slot : Keep) :
    ∃ shown p', (tellRegion watched p (.withMarking (.integer m) slot) s).answer =
        .ok (.text shown) ∧
      (tellRegion watched p (.withMarking (.integer m) slot) s).state.region? s.regions.length =
        some p' ∧
      ∀ v : Value, S.lts.Reach init.key v.key →
        (tellRegion watched p' (.markingOf v)
          (tellRegion watched p (.withMarking (.integer m) slot) s).state).answer =
            .ok (.number (m + p.potential S init v.key)) := by
  obtain ⟨hid, _⟩ := region?_eq_some_iff.1 hp
  obtain ⟨U', hs'⟩ :=
    hs.touches (tellRegion_leads (hid.symm ▸ hp) watched (.withMarking (.integer m) slot))
  rw [withMarking_apply hwell hm] at hs' ⊢
  have hregion := region?_marked hp m slot
  obtain ⟨b', m', n', h'⟩ := hs'.answers watched hS hi hregion hu
  obtain rfl : m' = m := h'.given
  exact ⟨_, _, rfl, hregion, h'.marking⟩

/-! ## Bounds that are attained -/

/-- If every reachable state had a token left then so would the initial one, whose potential is zero,
and one token less would be enough. -/
theorem Answers.attained (h : Answers watched s S init p b m n) :
    ∃ k, S.lts.Reach init.key k ∧ n + p.potential S init k = 0 := by
  by_contra hnone
  obtain ⟨_, hbound⟩ := (h.least n).1 le_rfl
  have habove : ∀ k, S.lts.Reach init.key k → 1 ≤ n + p.potential S init k := by
    intro k hk
    have hge := hbound k hk
    have hne : n + p.potential S init k ≠ 0 := fun heq => hnone ⟨k, hk, heq⟩
    omega
  have hfewer : n ≤ n - 1 := by
    refine (h.least (n - 1)).2 ⟨?_, fun k hk => ?_⟩
    · have hinit := habove init.key .root
      have hzero := h.potential_init
      omega
    · have hk := habove k hk
      omega
  omega

/-- The states that can be reached are those of values of the system. -/
theorem exists_value_of_reach (hS : S.lts.Valid) (hi : S.initial? = .ok init) {k : Key}
    (hk : S.lts.Reach init.key k) : ∃ v : Value, v.key = k := by
  obtain ⟨v, _, hv⟩ := List.mem_map.1 (hk.mem_states hS (System.initial_mem hS hi))
  exact ⟨v, hv⟩

/-- A region answers as its normal marking the least marking, not below zero, with which it gives no
reachable state a negative marking. With exactly this marking some reachable state has the marking
zero. Nothing is asked of the weights: the region may be inconsistent. -/
theorem normal_marking_is_least (watched : Bool) (hs : s.Steady u S) (hi : S.initial? = .ok init)
    (hp : s.region? r = some p) (hu : p.holding.region.utility = u) :
    ∃ n, (tellRegion watched p .normalMarking s).answer = .ok (.number n) ∧ 0 ≤ n ∧
      ∀ m slot, 0 ≤ m → ∃ shown p' s',
        (tellRegion watched p (.withMarking (.integer m) slot) s).answer = .ok (.text shown) ∧
        (tellRegion watched p (.withMarking (.integer m) slot) s).state = s' ∧
        s'.region? s.regions.length = some p' ∧
        ∃ marking : Value → Int,
          (∀ v : Value, S.lts.Reach init.key v.key →
            (tellRegion watched p' (.markingOf v) s').answer = .ok (.number (marking v))) ∧
          ((∀ v : Value, S.lts.Reach init.key v.key → 0 ≤ marking v) ↔ n ≤ m) ∧
          (m = n → ∃ v : Value, S.lts.Reach init.key v.key ∧ marking v = 0) := by
  obtain ⟨U, hU⟩ := hs.settled
  obtain ⟨b, _, n, h⟩ := hU.answers watched hs.valid hi hp hu
  have hwell := hs.reached.wellMade.regions r p hp
  refine ⟨n, h.normal, ((h.least n).1 le_rfl).1, fun m slot hm => ?_⟩
  obtain ⟨shown, p', hshown, hregion, hmarkings⟩ :=
    hU.marked_answers hs.valid hi hp hu hwell hm watched slot
  refine ⟨shown, p', _, hshown, rfl, hregion, fun v => m + p.potential S init v.key, hmarkings,
    ?_, ?_⟩
  · rw [h.least]
    constructor
    · intro hvalues
      refine ⟨hm, fun k hk => ?_⟩
      obtain ⟨v, rfl⟩ := exists_value_of_reach hs.valid hi hk
      exact hvalues v hk
    · rintro ⟨_, hbound⟩ v hv
      exact hbound v.key hv
  · rintro rfl
    obtain ⟨k, hk, hzero⟩ := h.attained
    obtain ⟨v, rfl⟩ := exists_value_of_reach hs.valid hi hk
    exact ⟨v, hk, hzero⟩

theorem normal_marking_is_least_ring :
    ringSession.Steady 0 ringSystem ∧ ringSystem.initial? = .ok (.text "s0") ∧
      ringSession.region? 0 = some ringRegion ∧ ringRegion.holding.region.utility = 0 ∧
      ∃ n, (tellRegion false ringRegion .normalMarking ringSession).answer = .ok (.number n) ∧
        0 ≤ n ∧ ∃ shown p' s',
          (tellRegion false ringRegion (.withMarking (.integer 2) none) ringSession).answer =
            .ok (.text shown) ∧
          (tellRegion false ringRegion (.withMarking (.integer 2) none) ringSession).state = s' ∧
          s'.region? ringSession.regions.length = some p' ∧
          ∃ marking : Value → Int,
            (∀ v : Value, ringSystem.lts.Reach (Value.text "s0").key v.key →
              (tellRegion false p' (.markingOf v) s').answer = .ok (.number (marking v))) ∧
            ((∀ v : Value, ringSystem.lts.Reach (Value.text "s0").key v.key → 0 ≤ marking v) ↔
              n ≤ 2) ∧
            (2 = n → ∃ v : Value, ringSystem.lts.Reach (Value.text "s0").key v.key ∧
              marking v = 0) := by
  obtain ⟨n, hn, hnonneg, hmarked⟩ :=
    normal_marking_is_least false steady_ringSession rfl region?_ringSession rfl
  exact ⟨steady_ringSession, rfl, region?_ringSession, rfl, n, hn, hnonneg,
    hmarked 2 none (by decide)⟩

end Session

end RegionCalculus
