import RegionCalculus.Proofs.Arithmetic
import RegionCalculus.Proofs.Futures
import RegionCalculus.Proofs.Slots

/-!
# Well-formed regions

Every region that a session holds passes the checks of a new region, however it was made and whatever
has been derived from it since. So the checks never refuse a sum of regions, nor a builder that was
purified.

* `Region.WellFormed events R`: what the checks ask of a region, for its derived marking as well.
* `Session.Fits s B`: the weights of the builder `B` fit its utility.
* `Session.WellMade s`: all regions are well-formed, and all builders fit.
* `Session.Crafts.fits`, `Touch.wellMade`, `Reached.wellMade`: no command breaks this.
* `Session.regions_stay_wellFormed`: what follows for the regions of a session, and for commands.
-/

namespace RegionCalculus
set_option autoImplicit false

open Attempt

/-! ## Regions -/

/-- One weight of each side per event, none below zero, and no initial marking below zero, be it given
or derived. -/
structure Region.WellFormed (events : Nat) (R : Region) : Prop where
  sized : R.weights.Sized events
  signs : (∀ x ∈ R.weights.backward, 0 ≤ x) ∧ ∀ x ∈ R.weights.forward, 0 ≤ x
  marking : ∀ m, R.marking? = some m → 0 ≤ m

theorem Region.Fresh.wellFormed {events : Nat} {R : Region} (h : R.Fresh events) :
    R.WellFormed events where
  sized := ⟨h.backward_length, h.forward_length⟩
  signs := h.signs
  marking := fun m hm => h.given_nonneg m (by simpa [Region.marking?, h.derived] using hm)

theorem RegionUtility.keptMarking?_nonneg {S : System} {U : RegionUtility} {net : List Int} {m : Int}
    (h : U.keptMarking? S net = some m) : 0 ≤ m := by
  unfold keptMarking? at h
  split at h
  · rw [← Option.some.inj h]
  · obtain ⟨table, _, rfl⟩ := Option.map_eq_some_iff.1 h
    exact (normalMarking_le_iff.1 le_rfl).1

namespace Holding

variable {S : System} {h h' : Holding}

/-- A marking that is derived is a normal marking. -/
theorem Derive.wellFormed (hd : Derive S h h') (hh : h.region.WellFormed h.utility.size) :
    h'.region.WellFormed h'.utility.size := by
  cases hd with
  | fill hf =>
    rw [RegionUtility.size, hf.events_eq]
    exact hh
  | @marking R U m hnone hkept =>
    refine ⟨hh.sized, hh.signs, fun m' hm' => ?_⟩
    have hgiven : R.given = none := Region.given_of_marking?_none hnone
    obtain rfl : m = m' := by simpa [Region.marking?, hgiven] using hm'
    exact RegionUtility.keptMarking?_nonneg hkept
  | state _ _ _ _ => exact ⟨hh.sized, hh.signs, hh.marking⟩

theorem derives_wellFormed (hd : Relation.ReflTransGen (Derive S) h h')
    (hh : h.region.WellFormed h.utility.size) : h'.region.WellFormed h'.utility.size := by
  induction hd with
  | refl => exact hh
  | tail _ hstep ih => exact hstep.wellFormed ih

end Holding

/-! ## Sessions -/

namespace Session

variable {s s' : Session} {B : Builder} {builders : List Builder}

def Fits (s : Session) (B : Builder) : Prop :=
  ∃ p, s.utility? B.utility = some p ∧ B.weights.Sized p.utility.size

structure WellMade (s : Session) : Prop where
  regions : ∀ r p, s.region? r = some p → p.holding.region.WellFormed p.holding.utility.size
  builders : ∀ B ∈ s.builders, s.Fits B

theorem wellMade_empty : WellMade {} where
  regions := fun _ _ hp => by cases hp
  builders := fun _ hB => absurd hB List.not_mem_nil

/-- A builder fits as long as the utility stays. -/
theorem Fits.becomes (h : s.Fits B)
    (hstays : ∀ p, s.utility? B.utility = some p →
      ∃ p', s'.utility? B.utility = some p' ∧ p.Becomes p') : s'.Fits B := by
  obtain ⟨p, hp, hsized⟩ := h
  obtain ⟨p', hp', hbecomes⟩ := hstays p hp
  refine ⟨p', hp', ?_⟩
  rw [RegionUtility.size, hbecomes.events]
  exact hsized

/-- A builder that is changed in its place fits if the change keeps the length of its weights. -/
theorem WellMade.fits_set (hs : s.WellMade) {b : BuilderId} {w : Weights}
    (hB : s.builders[b]? = some B)
    (hw : ∀ p, s.utility? B.utility = some p → B.weights.Sized p.utility.size →
      w.Sized p.utility.size) :
    ∀ B' ∈ s.builders.set b { B with weights := w }, s.Fits B' := by
  intro B' hB'
  rcases List.mem_or_eq_of_mem_set hB' with hB' | rfl
  · exact hs.builders B' hB'
  · obtain ⟨p, hp, hsized⟩ := hs.builders B (List.mem_of_getElem? hB)
    exact ⟨p, hp, hw p hp hsized⟩

theorem WellMade.fits_append (hs : s.WellMade) (hB : s.Fits B) :
    ∀ B' ∈ s.builders ++ [B], s.Fits B' := by
  intro B' hB'
  rcases List.mem_append.1 hB' with hB' | hB'
  · exact hs.builders B' hB'
  · rw [List.mem_singleton.1 hB']
    exact hB

theorem Crafts.fits (h : s.Crafts builders) (hs : s.WellMade) : ∀ B ∈ builders, s.Fits B := by
  cases h with
  | made hp hsized => exact hs.fits_append ⟨_, hp, hsized⟩
  | @copied p hp =>
    exact hs.fits_append ⟨p.owner, (region?_eq_some_iff.1 hp).2.2, (hs.regions _ p hp).sized⟩
  | loop i k hB => exact hs.fits_set hB fun p _ hsized => hsized.addLoop i k
  | @added b B P q k hB hP hq hsame =>
    refine hs.fits_set hB fun p hp hsized => ?_
    obtain rfl := Option.some.inj (hp.symm.trans hP)
    refine hsized.accumulate ?_ k
    rw [← (owner_eq hp hq hsame).1]
    exact (hs.regions _ q hq).sized
  | purified hB => exact hs.fits_set hB fun p _ hsized => hsized.purified

theorem Touch.wellMade (h : Touch s s') (hsound : s.Sound) (hrooted : s.Rooted) (hs : s.WellMade) :
    s'.WellMade where
  regions := fun r p hp => by
    rcases h.region?_cases hsound hrooted hp with ⟨h₀, hold, hd⟩ | ⟨_, hfresh⟩
    · exact Holding.derives_wellFormed hd (hs.regions r _ hold)
    · exact hfresh.wellFormed
  builders := fun B hB => by
    have hfits : s.Fits B := by
      cases h with
      | builders hcrafts => exact hcrafts.fits hs B hB
      | _ => exact hs.builders B hB
    exact hfits.becomes fun p hp => h.utility? hrooted hp

theorem WellMade.touches (hs : s.WellMade) (hsound : s.Sound) (hrooted : s.Rooted)
    (h : Relation.ReflTransGen Touch s s') : s'.WellMade := by
  induction h with
  | refl => exact hs
  | tail hprev hstep ih => exact hstep.wellMade (hsound.touches hprev) (hrooted.touches hprev) ih

theorem WellMade.setSystem (hs : s.WellMade) {i : SystemId} {S S' : System}
    (hS : s.systems[i]? = some S) (hgrows : S.Grows S') : (s.setSystem i S').WellMade where
  regions := fun r p hp => by
    obtain ⟨hid, hR, hU⟩ := region?_eq_some_iff.1 hp
    obtain ⟨T, hT, _⟩ := utility?_setSystem hS hgrows hU
    exact hs.regions r { p with system := T } (region?_eq_some_iff.2 ⟨hid, hR, hT⟩)
  builders := fun B hB => (hs.builders B hB).becomes fun p hp => by
    obtain ⟨T, hT, hTgrows⟩ := utility?_of_setSystem hS hgrows hp
    exact ⟨_, hT, .grow hTgrows⟩

theorem Reached.wellMade (h : s.Reached) : s.WellMade := by
  induction h with
  | empty => exact wellMade_empty
  | @step s watched c hs ih =>
    rcases perform_cases watched c s with hleads | ⟨i, S, S', hS, hgrows, hstate⟩
    · exact ih.touches hs.sound hs.rooted hleads
    · change (perform watched c s).state.WellMade
      rw [hstate]
      exact ih.setSystem hS hgrows

theorem Reached.builder_sized (h : s.Reached) {b : BuilderId} {p : PlacedBuilder}
    (hp : s.builder? b = some p) : p.builder.weights.Sized p.utility.size := by
  obtain ⟨_, hB, hU⟩ := builder?_eq_some_iff.1 hp
  obtain ⟨q, hq, hsized⟩ := h.wellMade.builders _ (List.mem_of_getElem? hB)
  obtain rfl := Option.some.inj (hU.symm.trans hq)
  exact hsized

theorem Reached.exists_region? (h : s.Reached) {r : RegionId} (hr : r < s.regions.length) :
    ∃ p, s.region? r = some p := by
  have hR := List.getElem?_eq_getElem hr
  have hu := h.sound.placed _ (List.getElem_mem hr)
  have hU := List.getElem?_eq_getElem hu
  have hsystem := List.getElem?_eq_getElem (h.rooted _ (List.getElem_mem hu))
  exact ⟨⟨r, ⟨s.regions[r], _⟩, _⟩,
    region?_eq_some_iff.2 ⟨rfl, hR, utility?_eq_some_iff.2 ⟨rfl, hU, hsystem⟩⟩⟩

end Session

/-! ## Checks that pass -/

namespace Region

variable {R other : Region} {events : Nat}

/-- The sum of `R` with `k` times `other`, before anything is derived from it. -/
def sum (R other : Region) (k : Int) : Region :=
  { utility := R.utility, weights := R.weights.addScaled other.weights k }

theorem addScaled?_eq (hR : R.WellFormed events) (ho : other.WellFormed events)
    (hsame : other.utility = R.utility) (k : Int) :
    R.addScaled? other events (.integer k) = .ok (if k = 0 then none else some (R.sum other k)) := by
  have hsum : ofWeights? R.utility events (R.weights.addScaled other.weights k) none =
      .ok (R.sum other k) :=
    ofWeights?_eq (hR.sized.addScaled ho.sized k) (Weights.signs_addScaled hR.signs ho.signs k)
      fun _ h => by cases h
  rw [addScaled?, if_neg (not_not.2 hsame), Value.integer?]
  by_cases hk : k = 0
  · simp [hk, bind, Except.bind, pure, Except.pure]
  · simp [hk, hsum, bind, Except.bind, Except.map]

end Region

theorem Builder.finish?_eq {B : Builder} {events : Nat} {m : Option Int}
    (hsized : B.weights.Sized events)
    (hsigns : (∀ x ∈ B.weights.backward, 0 ≤ x) ∧ ∀ x ∈ B.weights.forward, 0 ≤ x)
    (hm : ∀ k, m = some k → 0 ≤ k) :
    B.finish? events (m.elim .null .integer) =
      .ok { utility := B.utility, weights := B.weights, given := m } := by
  rw [← Region.ofWeights?_eq hsized hsigns hm]
  cases m <;> rfl

namespace Session

variable {s : Session} {on other : SlotName} {p q : PlacedRegion}

/-- What becomes of a session when a sum of regions is asked for: the factor 0 gives the first region
itself, and any other factor a new region. -/
theorem addScaled_apply (hp : p.holding.region.WellFormed p.holding.utility.size)
    (hq : q.holding.region.WellFormed p.holding.utility.size)
    (hsame : q.holding.region.utility = p.holding.region.utility)
    (hother : s.regionIn? other = some q) (watched : Bool) (k : Int) (slot : Keep) :
    tellRegion watched p (.addScaled (.slot other) (.integer k) slot) s =
      if k = 0 then ⟨.ok (.text p.holding.region.shown), s.place slot (.region p.id), []⟩
      else produce (p.holding.region.sum q.holding.region k) slot s := by
  have hsum := Region.addScaled?_eq hp hq hsame k
  change addOperand p (.slot other) (.integer k) slot s = _
  rw [addOperand, bind_of_ok (operand_slot hother), List.nil_append]
  dsimp only
  rw [hsum]
  by_cases hk : k = 0
  · rw [if_pos hk, if_pos hk]
    rfl
  · rw [if_neg hk, if_neg hk]
    rfl

theorem finish_apply {p : PlacedBuilder} (hsized : p.builder.weights.Sized p.utility.size)
    (hsigns : (∀ x ∈ p.builder.weights.backward, 0 ≤ x) ∧
      ∀ x ∈ p.builder.weights.forward, 0 ≤ x)
    {m : Option Int} (hm : ∀ k, m = some k → 0 ≤ k) (watched : Bool) (slot : Keep) :
    tellBuilder watched p (.finish (m.elim .null .integer) slot) s =
      produce { utility := p.builder.utility, weights := p.builder.weights, given := m } slot s := by
  rw [tellBuilder, Builder.finish?_eq hsized hsigns hm]
  rfl

/-- A builder is purified in its place, and the slot that it stands in still holds it. -/
theorem purify_outcome {p : PlacedBuilder} (hon : s.builderIn? on = some p) (watched : Bool)
    (slot : Keep) :
    (step watched (.toBuilder on (.purify slot)) s).1.answer =
        .ok (.weights p.builder.weights.purified) ∧
      (step watched (.toBuilder on (.purify slot)) s).2.builderIn? on =
        some { p with builder := p.builder.purified } := by
  obtain ⟨hanswer, hstate⟩ := step_toBuilder hon watched (.purify slot)
  obtain ⟨hslot, hp⟩ := builderIn?_eq_some_iff.1
    (builderIn?_setBuilder (B := p.builder.purified) hon rfl)
  rw [hanswer, hstate]
  refine ⟨rfl, builderIn?_eq_some_iff.2 ⟨lookup_place_of_eq hslot slot, ?_⟩⟩
  rw [tellBuilder, rebuild_apply, builder?_place]
  exact hp

/-- A region of a utility is well-formed for the events of the utility. -/
theorem WellMade.wellFormed (hs : s.WellMade) {j : RegionId} {P : PlacedUtility}
    (hP : s.utility? P.id = some P) (hq : s.region? j = some q)
    (hsame : q.holding.region.utility = P.id) : q.holding.region.WellFormed P.utility.size := by
  rw [← (owner_eq hP hq hsame).1]
  exact hs.regions j q hq

theorem add_answers (hs : s.Reached) (hon : s.regionIn? on = some p)
    (hother : s.regionIn? other = some q)
    (hsame : q.holding.region.utility = p.holding.region.utility) (watched : Bool) (k : Int)
    (slot : Keep) : ∃ shown,
      (step watched (.toRegion on (.addScaled (.slot other) (.integer k) slot)) s).1.answer =
        .ok (.text shown) := by
  have hp := hs.wellMade.regions _ p (region?_of_regionIn? hon)
  have hq := hs.wellMade.wellFormed (owner_of_regionIn? hon) (region?_of_regionIn? hother) hsame
  rw [(step_toRegion hon watched _).1, addScaled_apply hp hq hsame hother watched k slot]
  by_cases hk : k = 0
  · rw [if_pos hk]
    exact ⟨_, rfl⟩
  · rw [if_neg hk]
    exact ⟨_, rfl⟩

theorem purified_finishes (hs : s.Reached) {p : PlacedBuilder} (hon : s.builderIn? on = some p)
    {m : Option Int} (hm : ∀ k, m = some k → 0 ≤ k) (watched : Bool) (slot slot' : Keep) :
    ∃ w shown, (run watched [.toBuilder on (.purify slot),
      .toBuilder on (.finish (m.elim .null .integer) slot')] s).1.map (·.answer) =
        [.ok (.weights w), .ok (.text shown)] := by
  obtain ⟨hanswer, hon'⟩ := purify_outcome hon watched slot
  have hsized := hs.builder_sized (builder?_of_builderIn? hon)
  obtain ⟨hanswer', _⟩ := step_toBuilder hon' watched (.finish (m.elim .null .integer) slot')
  rw [finish_apply hsized.purified hsized.signs_purified hm, produce_apply] at hanswer'
  exact ⟨_, _, by rw [run, run, run, List.map_cons, List.map_cons, List.map_nil, hanswer, hanswer']⟩

/-- In a session every region is well-formed and stays so. Hence two regions of one utility can be
added with any factor, and a builder that was purified can be finished with any marking that is not
negative. -/
theorem regions_stay_wellFormed (hs : s.Reached) :
    (∀ r < s.regions.length, ∃ p, s.region? r = some p ∧ ∀ s', s.Later s' →
      ∃ p', s'.region? r = some p' ∧ p.Becomes p' ∧
        p'.holding.region.WellFormed p'.holding.utility.size) ∧
    (∀ on other p q, s.regionIn? on = some p → s.regionIn? other = some q →
      q.holding.region.utility = p.holding.region.utility → ∀ watched k slot, ∃ shown,
        (step watched (.toRegion on (.addScaled (.slot other) (.integer k) slot)) s).1.answer =
          .ok (.text shown)) ∧
    ∀ on p, s.builderIn? on = some p →
      ∀ marking : Value, (marking = .null ∨ ∃ k, 0 ≤ k ∧ marking = .integer k) →
        ∀ watched slot slot', ∃ w shown,
          (run watched [.toBuilder on (.purify slot), .toBuilder on (.finish marking slot')]
            s).1.map (·.answer) = [.ok (.weights w), .ok (.text shown)] := by
  refine ⟨fun r hr => ?_, ?_, ?_⟩
  · obtain ⟨p, hp⟩ := hs.exists_region? hr
    refine ⟨p, hp, fun s' hlater => ?_⟩
    obtain ⟨p', hp', hbecomes⟩ := hlater.region? hs hp
    exact ⟨p', hp', hbecomes, (hlater.reached hs).wellMade.regions r p' hp'⟩
  · intro on other p q hon hother hsame watched k slot
    exact add_answers hs hon hother hsame watched k slot
  · intro on p hon marking hmarking watched slot slot'
    rcases hmarking with rfl | ⟨k, hk, rfl⟩
    · exact purified_finishes hs (m := none) hon (by simp) watched slot slot'
    · exact purified_finishes hs (m := some k) hon (by simpa using hk) watched slot slot'

/-- The session of the ring with a second region and a builder that takes less than nothing. -/
def craftSession : Session := (run false
  [.newRegion "utility" [.integer 0, .integer 1, .integer 4] [.integer 0, .integer 3, .integer 0]
      (.integer 7) (some "other"),
    .newBuilder "utility" (some [.integer (-1), .integer 2, .integer 0])
      (some [.integer 3, .integer (-5), .integer 0]) (some "builder")] ringSession).2

theorem reached_craftSession : craftSession.Reached := steady_ringSession.reached.run false _

/-- The second region of the session. -/
def craftRegion : PlacedRegion :=
  ⟨1, ⟨⟨0, ⟨[0, 1, 4], [0, 3, 0]⟩, some 7, none, []⟩, ringRegion.holding.utility⟩, ringSystem⟩

def craftBuilder : PlacedBuilder :=
  ⟨0, ⟨0, ⟨[-1, 2, 0], [3, -5, 0]⟩⟩, ringRegion.holding.utility, ringSystem⟩

theorem regions_stay_wellFormed_craft :
    craftSession.Reached ∧
      (∃ shown, (step false (.toRegion "region" (.addScaled (.slot "other") (.integer (-2)) none))
        craftSession).1.answer = .ok (.text shown)) ∧
      ∃ w shown, (run false [.toBuilder "builder" (.purify none),
        .toBuilder "builder" (.finish (.integer 3) none)] craftSession).1.map (·.answer) =
          [.ok (.weights w), .ok (.text shown)] := by
  obtain ⟨_, hadd, hfinish⟩ := regions_stay_wellFormed reached_craftSession
  refine ⟨reached_craftSession, ?_, ?_⟩
  · exact hadd "region" "other" ringRegion craftRegion rfl rfl rfl false (-2) none
  · exact hfinish "builder" craftBuilder rfl (.integer 3) (.inr ⟨3, by decide, rfl⟩) false none none

end Session

end RegionCalculus
