import RegionCalculus.Proofs.Afresh
import RegionCalculus.Proofs.Purification
import RegionCalculus.Proofs.Verdicts

/-!
# Equality is a congruence

Whatever a session does, equality of regions is an equivalence, its answers stay, and equal regions are
interchangeable: they are asked alike, purified alike and added alike, although one of them may have been
given its marking and the other has derived it, and although they keep the markings of different states.

* `Session.PlacedRegion.Coincides p q`: the regions differ in nothing but in what they keep of states.
* `Session.AnswersAlike watched s c c'`: `c'` is answered as `c` is, in its place and after it.
* `Session.alike_of_inquires`, `alike_purified`, `alike_sums`: commands to equal regions.
* `Session.equal_purified_of_coincides`, `equal_sums`: what these commands make is equal.
* `Session.Congruent`, `EqualityLaws`: all of this, and the laws of equality in a session.
* `Session.equality_laws`: they hold in every session.
-/

namespace RegionCalculus
set_option autoImplicit false

open Attempt

/-- Purifying answers once the normal marking is, and before it the inspection of a watched run. -/
theorem Region.purified_answer {S : System} {U : RegionUtility} {R : Region}
    (hR : R.weights.Sized U.size) (watched : Bool) :
    (R.purified S watched U).answer =
      (Attempt.provided watched (Builder.inspect ⟨R.utility, .ofNet R.weights.net⟩ S) U).answer >>=
        fun _ => (RegionUtility.normalMarkingFor S R.weights.net U).answer.map
          (Region.normal R.utility R.weights) := by
  rw [purified_eq hR, Builder.finishNormal_answer_bind, Weights.net_ofNet]
  refine congrArg _ (funext fun _ => ?_)
  cases hm : (RegionUtility.normalMarkingFor S R.weights.net U).answer with
  | error f => rfl
  | ok m =>
    have hnonneg : 0 ≤ m :=
      RegionUtility.keptMarking?_nonneg (RegionUtility.normalMarkingFor_state hm)
    exact ofWeights?_eq hR.ofNet_net (Weights.signs_ofNet _) fun k hk => Option.some.inj hk ▸ hnonneg

namespace Session

variable {s s' : Session} {i j i' j' : RegionId} {p q p' q' : PlacedRegion} {R : Region} {n : Int}
  {on on' other other' a b name left right : SlotName} {watched : Bool}

/-! ## Equal regions -/

/-- The regions differ in nothing but their numbers and the markings of states that they keep. -/
structure PlacedRegion.Coincides (p q : PlacedRegion) : Prop where
  owner : q.holding.region.utility = p.holding.region.utility
  weights : q.holding.region.weights = p.holding.region.weights
  marking : q.holding.region.marking? = p.holding.region.marking?
  utility : q.holding.utility = p.holding.utility
  system : q.system = p.system

theorem Verdict.coincides (h : Verdict p q true) (hp : s.region? p.id = some p)
    (hq : s.region? q.id = some q) : p.Coincides q := by
  rcases h.cases_true with heq | ⟨howner, hweights, m, hm, hn⟩
  · rw [heq] at hq
    obtain rfl := Option.some.inj (hp.symm.trans hq)
    exact ⟨rfl, rfl, rfl, rfl, rfl⟩
  · obtain ⟨hutility, hsystem⟩ := owner_eq (region?_eq_some_iff.1 hp).2.2 hq howner
    exact ⟨howner, hweights, hm.trans hn.symm, hutility, hsystem⟩

namespace PlacedRegion.Coincides

theorem initialAnswer_eq (h : p.Coincides q) : q.initialAnswer = p.initialAnswer := by
  cases hm : p.holding.region.marking? with
  | some m => rw [initialAnswer_of_some hm, initialAnswer_of_some (h.marking.trans hm)]
  | none =>
    rw [initialAnswer_of_none hm, initialAnswer_of_none (h.marking.trans hm)]
    exact normalAnswer_congr h.system h.utility h.weights

theorem resembles (h : p.Coincides q) : p.Resembles q :=
  resembles_of_same h.system h.utility h.weights h.initialAnswer_eq

theorem shown_eq (h : p.Coincides q) : q.holding.region.shown = p.holding.region.shown := by
  exact Region.shown_congr h.weights h.marking

end PlacedRegion.Coincides

/-- Regions that are both found in slots and are known to be equal coincide. -/
theorem Decided.coincides (h : s.Decided p.id q.id true) (hp : s.region? p.id = some p)
    (hq : s.region? q.id = some q) : p.Coincides q := by
  obtain ⟨p', q', hp', hq', hverdict⟩ := h
  obtain rfl := Option.some.inj (hp.symm.trans hp')
  obtain rfl := Option.some.inj (hq.symm.trans hq')
  exact hverdict.coincides hp hq

/-! ## Questions -/

/-- The commands are answered alike, the second in place of the first and after it. -/
structure AnswersAlike (watched : Bool) (s : Session) (c c' : Command) : Prop where
  instead : (step watched c' s).1.answer = (step watched c s).1.answer
  after : (step watched c' (step watched c s).2).1.answer = (step watched c s).1.answer

/-- A command to a region derives at most more from the region in another slot. -/
theorem regionIn?_toRegion (hs : s.Reached) (watched : Bool) (on : SlotName) (c : RegionCommand)
    (hq : s.regionIn? name = some q)
    (hslot : (step watched (.toRegion on c) s).2.slots.lookup name = s.slots.lookup name) :
    ∃ h, (step watched (.toRegion on c) s).2.regionIn? name = some { q with holding := h } ∧
      Relation.ReflTransGen (Holding.Derive q.system) q.holding h := by
  have hleads : (perform watched (.toRegion on c)).Leads Touch s :=
    perform_leads (fun _ _ h => by cases h) watched s
  obtain ⟨hname, hplaced⟩ := regionIn?_eq_some_iff.1 hq
  obtain ⟨h, hh, hd⟩ := touches_region?_derives hleads hs.sound hs.rooted hplaced
  exact ⟨h, regionIn?_eq_some_iff.2 ⟨hslot.trans hname, hh⟩, hd⟩

theorem slots_of_inquires {c : RegionCommand} (hc : c.Inquires) (hp : s.regionIn? on = some p)
    (watched : Bool) : (step watched (.toRegion on c) s).2.slots = s.slots := by
  rw [(step_toRegion hp watched c).2]
  cases c with
  | backward | forward | net | isPure => rfl
  | backwardOf _ | forwardOf _ | netOf _ | evaluate _ | isConsistent | initialMarking | normalMarking
  | markingOf _ | showEvents =>
    rw [tellRegion, state_bind_pure]
    rfl
  | _ => exact hc.elim

theorem alike_of_inquires (hs : s.Reached) {c : RegionCommand} (hc : c.Inquires)
    (hp : s.regionIn? on = some p) (hq : s.regionIn? on' = some q) (h : p.Coincides q)
    (watched : Bool) : AnswersAlike watched s (.toRegion on c) (.toRegion on' c) := by
  have hfaithful := hs.faithful (region?_of_regionIn? hp)
  have hfaithful' := hs.faithful (region?_of_regionIn? hq)
  obtain ⟨k, hk, hd⟩ := regionIn?_toRegion hs watched on c hq (by rw [slots_of_inquires hc hp])
  have hreached : (step watched (.toRegion on c) s).2.Reached := .step watched _ hs
  constructor
  · rw [(step_toRegion hp watched c).1, (step_toRegion hq watched c).1]
    exact tellRegion_of_resembles hc h.resembles hfaithful hfaithful' watched s s
  · rw [(step_toRegion hk watched c).1, (step_toRegion hp watched c).1]
    exact tellRegion_of_resembles hc (h.resembles.trans (PlacedRegion.resembles_of_derives hd))
      hfaithful (hreached.faithful (region?_of_regionIn? hk)) watched s _

/-! ## Keys -/

theorem alike_identities (hp : s.regionIn? left = some p)
    (hq : s.regionIn? right = some q) (h : p.Coincides q) :
    (identity right s).answer = (identity left s).answer := by
  rw [identity_answer hp, identity_answer hq, h.initialAnswer_eq, h.owner, h.weights]

theorem distinct_of_coincides (hs : s.Reached) (hp : s.regionIn? left = some p)
    (hq : s.regionIn? right = some q) (h : p.Coincides q) {k : UtilityId × Weights × Int}
    (hk : (identity left s).answer = .ok k) (watched : Bool) :
    (step watched (.distinct [left, right]) s).1.answer = .ok (.number 1) := by
  -- looking at the first region derives at most more from the second one
  have hleads : (identity left).Leads Touch s := identity_leads left s
  have hslots : (identity left s).state.slots = s.slots := by
    rw [identity, regionAt, lookup_bind hp, state_bind_pure]
    rfl
  obtain ⟨hname, hplaced⟩ := regionIn?_eq_some_iff.1 hq
  obtain ⟨d, hd, hderives⟩ := touches_region?_derives hleads hs.sound hs.rooted hplaced
  have hq' : (identity left s).state.regionIn? right = some { q with holding := d } :=
    regionIn?_eq_some_iff.2 ⟨by rw [hslots]; exact hname, hd⟩
  have hk' : (identity right (identity left s).state).answer = .ok k := by
    obtain ⟨howner, hweights, _⟩ := Region.derives_frame hderives
    rw [identity_answer hq', (PlacedRegion.resembles_of_derives hderives).initial, ← hk,
      ← alike_identities hp hq h, identity_answer hq]
    dsimp only
    rw [howner, hweights]
  have hfound : (([left, right].mapM identity) s).answer = .ok [k, k] := by
    simp only [List.mapM_cons, List.mapM_nil, bind_assoc, pure_bind]
    rw [answer_bind_of_ok hk, answer_bind_of_ok hk']
    rfl
  have hone : RegionCalculus.distinct [k, k] = [k] := by simp [distinct_cons]
  change (perform watched (.distinct [left, right]) s).answer = _
  rw [perform, answer_bind_pure, distinctRegions, answer_bind_pure, hfound]
  change Except.ok (Answer.number (RegionCalculus.distinct [k, k]).length) = _
  rw [hone]
  rfl

/-! ## Purified regions -/

/-- What purifying a region answers. -/
abbrev PlacedRegion.purified? (p : PlacedRegion) (watched : Bool) : Except Fault Region :=
  (p.holding.region.purified p.system watched p.holding.utility).answer

theorem purify_step (hp : s.regionIn? on = some p) (watched : Bool) (a : SlotName) :
    (step watched (purifyTo on a) s).1.answer =
        (p.purified? watched).map (.text ·.shown) ∧
      (∀ name, name ≠ a →
        (step watched (purifyTo on a) s).2.slots.lookup name = s.slots.lookup name) ∧
      ∀ R, p.purified? watched = .ok R →
        s.Puts a (step watched (purifyTo on a) s).2 s.regions.length R := by
  obtain ⟨hanswer, hstate⟩ := step_toRegion hp watched (.purify (some a))
  rw [purifyTo, hanswer, hstate, tellRegion]
  cases hR : p.purified? watched with
  | error f =>
    have herror : (onUtilityOf p (p.holding.region.purified p.system watched) s).answer = .error f :=
      hR
    rw [answer_bind_of_error herror, state_bind_of_error herror]
    exact ⟨rfl, fun _ _ => rfl, fun R h => by cases h⟩
  | ok R =>
    have hok : (onUtilityOf p (p.holding.region.purified p.system watched) s).answer = .ok R := hR
    rw [answer_bind_of_ok hok, state_bind_of_ok hok, produce_apply]
    refine ⟨rfl, fun name hne => ?_, fun R' h => ?_⟩
    · exact lookup_place_ne (fun e => hne (Option.some.inj e).symm) _ _
    · obtain rfl := Except.ok.inj h
      have hslots : (onUtilityOf p (p.holding.region.purified p.system watched) s).state.slots =
          s.slots := rfl
      exact puts_withRegion hslots rfl a R

theorem exists_normal_of_purified? (hs : s.Reached) (hp : s.regionIn? on = some p)
    (hR : p.purified? watched = .ok R) :
    ∃ m, R = Region.normal p.holding.region.utility p.holding.region.weights m := by
  rw [PlacedRegion.purified?, Region.purified_answer
    (hs.wellMade.regions _ p (region?_of_regionIn? hp)).sized] at hR
  obtain ⟨_, _, hR⟩ := except_bind_eq_ok.1 hR
  cases hm : (RegionUtility.normalMarkingFor p.system p.holding.region.weights.net
      p.holding.utility).answer with
  | error f =>
    rw [hm] at hR
    cases hR
  | ok m =>
    rw [hm] at hR
    exact ⟨m, (Except.ok.inj hR).symm⟩

theorem PlacedRegion.Coincides.purified?_eq (h : p.Coincides q) (watched : Bool) :
    q.purified? watched = p.purified? watched := by
  rw [PlacedRegion.purified?, Region.purified, h.owner, h.weights, h.system, h.utility]
  rfl

theorem purified?_of_derives {h : Holding}
    (hd : Relation.ReflTransGen (Holding.Derive p.system) p.holding h) (watched : Bool) :
    PlacedRegion.purified? { p with holding := h } watched = p.purified? watched := by
  obtain ⟨howner, hweights, _⟩ := Region.derives_frame hd
  rw [PlacedRegion.purified?, Region.purified, howner, hweights]
  exact (Region.durable_purified _ p.system watched).answer_of_steps (Region.fills_of_derives hd)

/-- After a region was purified, an equal one is purified to the same. -/
theorem purified?_after (hs : s.Reached) (hp : s.regionIn? on = some p)
    (hq : s.regionIn? on' = some q) (h : p.Coincides q) (watched : Bool) (ha : a ≠ on') :
    ∃ q', (step watched (purifyTo on a) s).2.regionIn? on' = some q' ∧
      q'.purified? watched = p.purified? watched := by
  have hslot := (purify_step hp watched a).2.1 on' ha.symm
  obtain ⟨k, hk, hd⟩ := regionIn?_toRegion hs watched on (.purify (some a)) hq hslot
  exact ⟨_, hk, (purified?_of_derives hd watched).trans (h.purified?_eq watched)⟩

theorem alike_purified (hs : s.Reached) (hp : s.regionIn? on = some p)
    (hq : s.regionIn? on' = some q) (h : p.Coincides q) (watched : Bool) (ha : a ≠ on') :
    AnswersAlike watched s (purifyTo on a) (purifyTo on' b) := by
  obtain ⟨q', hq', hsame⟩ := purified?_after hs hp hq h watched ha
  constructor
  · rw [(purify_step hp watched a).1, (purify_step hq watched b).1, h.purified?_eq watched]
  · rw [(purify_step hp watched a).1, (purify_step hq' watched b).1, hsame]

/-- Two regions that are the same but for their numbers are equal, unless the marking that they still
lack cannot be derived. -/
theorem equal_twins (hp : s.regionIn? a = some p) (hq : s.regionIn? b = some q)
    (hsame : q.holding.region = p.holding.region) (watched : Bool) :
    (step watched (.equal (.slot a) (.slot b)) s).1.answer = .ok (.truth true) ∨
      ∃ f, (step watched (.equal (.slot a) (.slot b)) s).1.answer = .error f ∧
        (step watched (.toRegion a .initialMarking) s).1.answer = .error f := by
  have hp' := region?_of_regionIn? hp
  have hq' := region?_of_regionIn? hq
  have howner : q.holding.region.utility = p.holding.region.utility := by rw [hsame]
  have hweights : q.holding.region.weights = p.holding.region.weights := by rw [hsame]
  obtain ⟨hutility, hsystem⟩ := owner_eq (region?_eq_some_iff.1 hp').2.2 hq' howner
  have hcoincides : p.Coincides q := ⟨howner, hweights, by rw [hsame], hutility, hsystem⟩
  rw [(step_equal hp hq watched).1, (step_toRegion hp watched .initialMarking).1,
    tellRegion_initialMarking, equalRegions]
  by_cases hid : q.id = p.id
  · rw [if_pos hid]
    exact .inl rfl
  · rw [if_neg hid, if_pos ⟨howner, hweights⟩, two_markings hp' hq' hid howner hweights,
      hcoincides.initialAnswer_eq]
    change _ ∨ ∃ f, _ ∧ p.initialAnswer.map _ = _
    cases p.initialAnswer with
    | error f => exact .inr ⟨f, rfl, rfl⟩
    | ok m => exact .inl (congrArg (fun b => Except.ok (Answer.truth b)) (decide_eq_true rfl))

theorem regionIn?_of_stands (hs : s.Reached) (h : s.Stands name i R) :
    ∃ p, s.regionIn? name = some p ∧ p.id = i ∧ p.holding.region = R := by
  obtain ⟨p, hp⟩ := hs.exists_region? h.lt
  obtain ⟨rfl, hR, _⟩ := region?_eq_some_iff.1 hp
  exact ⟨p, regionIn?_eq_some_iff.2 ⟨h.slot, hp⟩, rfl, Option.some.inj (hR.symm.trans h.region)⟩

theorem equal_purified_of_coincides (hs : s.Reached) (hp : s.regionIn? on = some p)
    (hq : s.regionIn? on' = some q) (h : p.Coincides q) {watched : Bool} (ha : a ≠ on')
    (hab : a ≠ b) {x : Answer} (hx : (step watched (purifyTo on a) s).1.answer = .ok x) :
    EndsWith watched s (purifyBoth on on' a b) (.truth true) := by
  obtain ⟨hanswer, _, hputs⟩ := purify_step hp watched a
  obtain ⟨q', hq', hsame⟩ := purified?_after hs hp hq h watched ha
  obtain ⟨hanswer', _, hputs'⟩ := purify_step hq' watched b
  cases hR : p.purified? watched with
  | error f =>
    rw [hanswer, hR] at hx
    cases hx
  | ok R =>
    rw [hR] at hanswer hsame
    rw [hsame] at hanswer'
    have hreached : (step watched (purifyTo on a) s).2.Reached := .step watched _ hs
    have hreached' : (step watched (purifyTo on' b) (step watched (purifyTo on a) s).2).2.Reached :=
      .step watched _ hreached
    have hfirst := (hputs' R hsame).others a _ _ hab (hputs R hR).slot
    obtain ⟨p₁, hp₁, _, hR₁⟩ := regionIn?_of_stands hreached' hfirst
    obtain ⟨p₂, hp₂, _, hR₂⟩ := regionIn?_of_stands hreached' (hputs' R hsame).slot
    -- the marking of a purified region is given, so that comparing does not fail
    obtain ⟨m, rfl⟩ := exists_normal_of_purified? hs hp hR
    have hm : (Region.normal p.holding.region.utility p.holding.region.weights m).marking? = some m :=
      rfl
    have hequal : (step watched (.equal (.slot a) (.slot b))
        (step watched (purifyTo on' b) (step watched (purifyTo on a) s).2).2).1.answer =
        .ok (.truth true) := by
      rcases equal_twins hp₁ hp₂ (hR₂.trans hR₁.symm) watched with htrue | ⟨f, _, hf⟩
      · exact htrue
      · rw [(step_toRegion hp₁ watched .initialMarking).1, tellRegion_initialMarking,
          Region.initialMarking_of_some (hR₁ ▸ hm)] at hf
        cases hf
    exact ((endsWith_single hequal).cons ⟨_, hanswer'⟩).cons ⟨_, hanswer⟩

/-- A region can be purified if its normal marking is answered and, in a watched run, its consistency. -/
theorem purifies_of_answers (hs : s.Reached) (hp : s.regionIn? on = some p)
    (hn : (step watched (.toRegion on .normalMarking) s).1.answer = .ok (.number n))
    (hc : watched = true →
      ∃ c, (step watched (.toRegion on .isConsistent) s).1.answer = .ok (.truth c))
    (a : SlotName) : ∃ shown, (step watched (purifyTo on a) s).1.answer = .ok (.text shown) := by
  let B : Builder := ⟨p.holding.region.utility, .ofNet p.holding.region.weights.net⟩
  have hinspected : (Attempt.provided watched (B.inspect p.system) p.holding.utility).answer =
      .ok () := by
    cases watched with
    | false => rfl
    | true =>
      obtain ⟨c, hc⟩ := hc rfl
      rw [(step_toRegion hp true _).1, tellRegion_isConsistent, Region.isConsistent_eq,
        Region.ask_answer, RegionUtility.isConsistent, answer_bind_pure] at hc
      rw [provided_true, (B.inspect_outcome p.system p.holding.utility).1]
      cases hcycles : (RegionUtility.cycleVectors p.system p.holding.utility).answer with
      | error f =>
        rw [hcycles] at hc
        cases hc
      | ok cycles => rfl
  rw [(step_toRegion hp watched _).1, tellRegion_normalMarking, Region.normalMarking_eq,
    Region.ask_answer] at hn
  have hnormal := map_number_eq_ok.1 hn
  have hR : p.purified? watched = .ok (.normal p.holding.region.utility p.holding.region.weights n) := by
    rw [PlacedRegion.purified?, Region.purified_answer
      (hs.wellMade.regions _ p (region?_of_regionIn? hp)).sized, hinspected, hnormal]
    rfl
  rw [(purify_step hp watched a).1, hR]
  exact ⟨_, rfl⟩

/-! ## Sums -/

/-- The sum that is put into a slot: for the factor 0 the region itself, and otherwise a new one. -/
theorem sum_step (hs : s.Reached) (hp : s.regionIn? on = some p) (hq : s.regionIn? other = some q)
    (hsame : q.holding.region.utility = p.holding.region.utility) (watched : Bool) (k : Int)
    (a : SlotName) :
    (step watched (addTo on other k a) s).1.answer = .ok (.text
        (if k = 0 then p.holding.region else p.holding.region.sum q.holding.region k).shown) ∧
      s.Puts a (step watched (addTo on other k a) s).2 (if k = 0 then p.id else s.regions.length)
        (if k = 0 then p.holding.region else p.holding.region.sum q.holding.region k) := by
  have hwell := hs.wellMade.regions _ _ (region?_of_regionIn? hp)
  have hwell' := hs.wellMade.wellFormed (owner_of_regionIn? hp) (region?_of_regionIn? hq) hsame
  obtain ⟨hstep, hstate⟩ :=
    step_toRegion hp watched (.addScaled (.slot other) (.integer k) (some a))
  rw [addTo, hstep, hstate, addScaled_apply hwell hwell' hsame hq]
  by_cases hk : k = 0
  · rw [if_pos hk, if_pos hk, if_pos hk]
    exact ⟨rfl, puts_place (stands_of_regionIn? hp) a⟩
  · rw [if_neg hk, if_neg hk, if_neg hk, produce_apply]
    exact ⟨rfl, puts_withRegion rfl rfl a _⟩

/-- Regions of different utilities are not added. -/
theorem sum_refused (hp : s.regionIn? on = some p) (hq : s.regionIn? other = some q)
    (hother : q.holding.region.utility ≠ p.holding.region.utility) (watched : Bool) (k : Int)
    (a : SlotName) : (step watched (addTo on other k a) s).1.answer = .error .otherUtility ∧
      (step watched (addTo on other k a) s).2 = s := by
  obtain ⟨hstep, hstate⟩ :=
    step_toRegion hp watched (.addScaled (.slot other) (.integer k) (some a))
  have hrefused : tellRegion watched p (.addScaled (.slot other) (.integer k) (some a)) s =
      ⟨.error .otherUtility, s, []⟩ := by
    change addOperand p (.slot other) (.integer k) (some a) s = _
    rw [addOperand, bind_of_ok (operand_slot hq)]
    dsimp only
    rw [Region.addScaled?, if_pos hother]
    rfl
  rw [addTo, hstep, hstate, hrefused]
  exact ⟨rfl, rfl⟩

theorem PlacedRegion.Coincides.sum_eq (h : p.Coincides p') (h' : q.Coincides q') (k : Int) :
    p'.holding.region.sum q'.holding.region k = p.holding.region.sum q.holding.region k := by
  rw [Region.sum, Region.sum, h.owner, h.weights, h'.weights]

/-- What two pairs of equal regions are added to: equal regions are put into two slots, one after the
other, unless the utilities of the summands differ. -/
theorem sum_step_twice (hs : s.Reached) (hp : s.regionIn? on = some p)
    (hq : s.regionIn? other = some q) (hp' : s.regionIn? on' = some p')
    (hq' : s.regionIn? other' = some q') (h : p.Coincides p') (h' : q.Coincides q')
    (hsame : q.holding.region.utility = p.holding.region.utility) (watched : Bool) (k : Int)
    (ha : a ≠ on') (ha' : a ≠ other') :
    (step watched (addTo on' other' k b) (step watched (addTo on other k a) s).2).1.answer =
        (step watched (addTo on other k a) s).1.answer ∧
      ∃ j R', (step watched (addTo on other k a) s).2.Puts b
          (step watched (addTo on' other' k b) (step watched (addTo on other k a) s).2).2 j R' ∧
        (k = 0 → j = p'.id) ∧ (k ≠ 0 → R' = p.holding.region.sum q.holding.region k) := by
  obtain ⟨hanswer, hputs⟩ := sum_step hs hp hq hsame watched k a
  have hreached : (step watched (addTo on other k a) s).2.Reached := .step watched _ hs
  obtain ⟨p₁, hp₁, hid, hR⟩ := regionIn?_of_stands hreached
    (hputs.others on' _ _ ha.symm (stands_of_regionIn? hp'))
  obtain ⟨q₁, hq₁, _, hT⟩ := regionIn?_of_stands hreached
    (hputs.others other' _ _ ha'.symm (stands_of_regionIn? hq'))
  have hsame₁ : q₁.holding.region.utility = p₁.holding.region.utility := by
    rw [hR, hT, h.owner, h'.owner, hsame]
  obtain ⟨hanswer₁, hputs₁⟩ := sum_step hreached hp₁ hq₁ hsame₁ watched k b
  rw [hR, hT, h.sum_eq h'] at hanswer₁ hputs₁
  rw [hanswer, hanswer₁]
  by_cases hk : k = 0
  · rw [if_pos hk, if_pos hk] at hputs₁
    rw [if_pos hk, if_pos hk, h.shown_eq]
    exact ⟨rfl, _, _, hputs₁, fun _ => hid, fun hne => absurd hk hne⟩
  · rw [if_neg hk, if_neg hk] at hputs₁
    rw [if_neg hk, if_neg hk]
    exact ⟨rfl, _, _, hputs₁, fun hzero => absurd hzero hk, fun _ => rfl⟩

theorem alike_sums (hs : s.Reached) (hp : s.regionIn? on = some p) (hq : s.regionIn? other = some q)
    (hp' : s.regionIn? on' = some p') (hq' : s.regionIn? other' = some q') (h : p.Coincides p')
    (h' : q.Coincides q') (watched : Bool) (k : Int) (ha : a ≠ on') (ha' : a ≠ other') :
    AnswersAlike watched s (addTo on other k a) (addTo on' other' k b) := by
  by_cases hsame : q.holding.region.utility = p.holding.region.utility
  · refine ⟨?_, (sum_step_twice hs hp hq hp' hq' h h' hsame watched k ha ha').1⟩
    have hsame' : q'.holding.region.utility = p'.holding.region.utility := by
      rw [h.owner, h'.owner, hsame]
    rw [(sum_step hs hp hq hsame watched k a).1, (sum_step hs hp' hq' hsame' watched k b).1,
      h.sum_eq h']
    by_cases hk : k = 0
    · rw [if_pos hk, if_pos hk, h.shown_eq]
    · rw [if_neg hk, if_neg hk]
  · obtain ⟨hanswer, hstate⟩ := sum_refused hp hq hsame watched k a
    have hsame' : q'.holding.region.utility ≠ p'.holding.region.utility := by
      rw [h.owner, h'.owner]
      exact hsame
    have hrefused := (sum_refused hp' hq' hsame' watched k b).1
    exact ⟨hrefused.trans hanswer.symm, by rw [hstate, hrefused, hanswer]⟩

theorem equal_sums (hs : s.Reached) (hp : s.regionIn? on = some p) (hq : s.regionIn? other = some q)
    (hp' : s.regionIn? on' = some p') (hq' : s.regionIn? other' = some q')
    (h : s.Decided p.id p'.id true) (h' : q.Coincides q') {watched : Bool} {k : Int}
    (ha : a ≠ on') (ha' : a ≠ other') (hab : a ≠ b) {x : Answer}
    (hx : (step watched (addTo on other k a) s).1.answer = .ok x) :
    let made := (run watched [addTo on other k a, addTo on' other' k b] s).2
    (step watched (.equal (.slot a) (.slot b)) made).1.answer = .ok (.truth true) ∨
      ∃ f, (step watched (.equal (.slot a) (.slot b)) made).1.answer = .error f ∧
        (step watched (.toRegion a .initialMarking) made).1.answer = .error f := by
  intro made
  have hcoincides := h.coincides (region?_of_regionIn? hp) (region?_of_regionIn? hp')
  by_cases hsame : q.holding.region.utility = p.holding.region.utility
  · obtain ⟨_, hputs⟩ := sum_step hs hp hq hsame watched k a
    obtain ⟨_, j, R', hputs', hzero, hnonzero⟩ :=
      sum_step_twice (b := b) hs hp hq hp' hq' hcoincides h' hsame watched k ha ha'
    have hlater : s.Later made := later_run watched _ s
    have hreached : made.Reached := hlater.reached hs
    have hfirst := hputs'.others a _ _ hab hputs.slot
    obtain ⟨p₁, hp₁, hid₁, hR₁⟩ := regionIn?_of_stands hreached hfirst
    obtain ⟨p₂, hp₂, hid₂, hR₂⟩ := regionIn?_of_stands hreached hputs'.slot
    by_cases hk : k = 0
    · rw [if_pos hk] at hid₁
      have hdecided : made.Decided p₁.id p₂.id true := by
        rw [hid₁, hid₂, hzero hk]
        exact h.later hs hlater
      exact .inl (hdecided.equates watched a b ⟨p₁, hp₁, rfl⟩ ⟨p₂, hp₂, rfl⟩)
    · rw [if_neg hk] at hR₁
      exact equal_twins hp₁ hp₂ (hR₂.trans ((hnonzero hk).trans hR₁.symm)) watched
  · rw [(sum_refused hp hq hsame watched k a).1] at hx
    cases hx

/-! ## Equality as a whole -/

/-- What equal regions, in the slots `on` and `on'`, have in common. All questions about them are answered
alike. Purifying them gives equal regions. So does adding any multiple of equal regions, in the slots
`other` and `other'`, unless the marking of the sums cannot be derived; where no region is made, both fail
alike. -/
structure Congruent (watched : Bool) (s : Session) (on on' other other' : SlotName) : Prop where
  inquiries : ∀ c : RegionCommand, c.Inquires →
    AnswersAlike watched s (.toRegion on c) (.toRegion on' c)
  purified : ∀ a b, a ∉ [on', b] → AnswersAlike watched s (purifyTo on a) (purifyTo on' b) ∧
    ∀ x, (step watched (purifyTo on a) s).1.answer = .ok x →
      EndsWith watched s (purifyBoth on on' a b) (.truth true)
  purifies : ∀ n, (step watched (.toRegion on .normalMarking) s).1.answer = .ok (.number n) →
    (watched = true →
      ∃ c, (step watched (.toRegion on .isConsistent) s).1.answer = .ok (.truth c)) →
    ∀ a, ∃ shown, (step watched (purifyTo on a) s).1.answer = .ok (.text shown)
  sums : ∀ k a b, a ∉ [on', other', b] →
    AnswersAlike watched s (addTo on other k a) (addTo on' other' k b) ∧
    ∀ x, (step watched (addTo on other k a) s).1.answer = .ok x →
      let made := (run watched [addTo on other k a, addTo on' other' k b] s).2
      (step watched (.equal (.slot a) (.slot b)) made).1.answer = .ok (.truth true) ∨
        ∃ f, (step watched (.equal (.slot a) (.slot b)) made).1.answer = .error f ∧
          (step watched (.toRegion a .initialMarking) made).1.answer = .error f

/-- The laws of equality in a session. -/
structure EqualityLaws (s : Session) : Prop where
  refl : ∀ on i, s.Names on i → s.Equates i i true
  symm : ∀ watched left right i j, s.Names left i → s.Names right j →
    (step watched (.equal (.slot right) (.slot left)) s).1.answer =
      (step watched (.equal (.slot left) (.slot right)) s).1.answer
  trans : ∀ i j k, s.Compared i j true → s.Compared j k true → s.Equates i k true
  stays : ∀ i j b, s.Compared i j b → s.Equates i j b
  keys : ∀ watched left right k l, (identity left s).answer = .ok k →
    (identity right s).answer = .ok l →
    (step watched (.equal (.slot left) (.slot right)) s).1.answer = .ok (.truth (decide (k = l)))
  sameKey : ∀ i j, s.Compared i j true → ∀ left right, s.Names left i → s.Names right j →
    (identity right s).answer = (identity left s).answer ∧
      ∀ k, (identity left s).answer = .ok k → ∀ watched,
        (step watched (.distinct [left, right]) s).1.answer = .ok (.number 1)
  congruent : ∀ i i' j j', s.Compared i i' true → s.Compared j j' true →
    ∀ watched on on' other other', s.Names on i → s.Names on' i' → s.Names other j →
      s.Names other' j' → s.Congruent watched on on' other other'

theorem congruent_of_decided (hs : s.Reached) (h : s.Decided i i' true) (h' : s.Decided j j' true)
    (watched : Bool) (hon : s.Names on i) (hon' : s.Names on' i') (hother : s.Names other j)
    (hother' : s.Names other' j') : s.Congruent watched on on' other other' := by
  obtain ⟨p, hp, rfl⟩ := hon
  obtain ⟨p', hp', rfl⟩ := hon'
  obtain ⟨q, hq, rfl⟩ := hother
  obtain ⟨q', hq', rfl⟩ := hother'
  have hpair := h.coincides (region?_of_regionIn? hp) (region?_of_regionIn? hp')
  have hpair' := h'.coincides (region?_of_regionIn? hq) (region?_of_regionIn? hq')
  refine
    { inquiries := fun c hc => alike_of_inquires hs hc hp hp' hpair watched
      purified := fun a b ha => ?_
      purifies := fun n hn hc a => purifies_of_answers hs hp hn hc a
      sums := fun k a b ha => ?_ }
  · simp only [List.mem_cons, List.not_mem_nil, or_false, not_or] at ha
    exact ⟨alike_purified hs hp hp' hpair watched ha.1,
      fun x hx => equal_purified_of_coincides hs hp hp' hpair ha.1 ha.2 hx⟩
  · simp only [List.mem_cons, List.not_mem_nil, or_false, not_or] at ha
    exact ⟨alike_sums hs hp hq hp' hq' hpair hpair' watched k ha.1 ha.2.1,
      fun x hx => equal_sums hs hp hq hp' hq' h hpair' ha.1 ha.2.1 ha.2.2 hx⟩

/-- In every session equality of regions is an equivalence. It compares what identifies the regions, its
answers are never taken back, and equal regions agree in all that is asked about them or made of them. -/
theorem equality_laws (hs : s.Reached) : s.EqualityLaws where
  refl := fun on i ⟨p, hp, hid⟩ => by
    have hplaced : s.region? i = some p := hid ▸ region?_of_regionIn? hp
    exact Decided.equates ⟨p, p, hplaced, hplaced, .same rfl⟩
  symm := fun watched left right i j ⟨p, hp, _⟩ ⟨q, hq, _⟩ => by
    rw [(step_equal hq hp watched).1, (step_equal hp hq watched).1,
      equalRegions_comm (region?_of_regionIn? hp) (region?_of_regionIn? hq)]
  trans := fun i j k h h' => (h.decided.trans h'.decided).equates
  stays := fun i j b h => h.decided.equates
  keys := fun watched left right k l hk hl => equal_of_identities hk hl watched
  sameKey := fun i j h left right ⟨p, hp, hi⟩ ⟨q, hq, hj⟩ => by
    subst hi hj
    have hpair := h.decided.coincides (region?_of_regionIn? hp) (region?_of_regionIn? hq)
    exact ⟨alike_identities hp hq hpair,
      fun k hk watched => distinct_of_coincides hs hp hq hpair hk watched⟩
  congruent := fun i i' j j' h h' watched on on' other other' hon hon' hother hother' =>
    congruent_of_decided hs h.decided h'.decided watched hon hon' hother hother'

/-! ## A region and its twin -/

/-- The session of the ring with a second region, which is given the marking that the first derives. -/
def twinMade : Session := (step false
  (.newRegion "utility" [.integer 0, .integer 2, .integer 0] [.integer 1, .integer 0, .integer 0]
    (.integer 1) (some "twin")) ringSession).2

def twinRegion : PlacedRegion :=
  ⟨1, ⟨⟨0, ⟨[0, 2, 0], [1, 0, 0]⟩, some 1, none, []⟩, ringRegion.holding.utility⟩, ringSystem⟩

/-- The two regions are compared, and then the unreachable state of the ring can be reached. -/
def twinSession : Session := (run false [.equal (.slot "region") (.slot "twin"),
  .toSystem "lts" (.createArc (.text "s1") (.text "s3") (.text "b"))] twinMade).2

theorem reached_twinMade : twinMade.Reached := .step false _ steady_ringSession.reached

theorem compared_twinSession : twinSession.Compared 0 1 true := by
  have hequal : (equalRegions ringRegion twinRegion twinMade).answer = .ok true := by
    have htrue : (equalRegions ringRegion twinRegion twinMade).answer.toOption = some true := by
      decide +kernel
    cases h : (equalRegions ringRegion twinRegion twinMade).answer with
    | error f => rw [h] at htrue; cases htrue
    | ok b => rw [h] at htrue; exact congrArg Except.ok (Option.some.inj htrue)
  have hleft : twinMade.regionIn? "region" = some ringRegion := rfl
  have hright : twinMade.regionIn? "twin" = some twinRegion := rfl
  refine ⟨twinMade, false, "region", "twin", reached_twinMade, ⟨_, hleft, rfl⟩, ⟨_, hright, rfl⟩, ?_,
    later_step false _ _⟩
  rw [(step_equal hleft hright false).1, hequal]
  rfl

theorem names_twinSession : twinSession.Names "region" 0 ∧ twinSession.Names "twin" 1 := by
  obtain ⟨p, q, hp, hq, _⟩ := compared_twinSession.decided
  obtain ⟨hid, _⟩ := region?_eq_some_iff.1 hp
  obtain ⟨hid', _⟩ := region?_eq_some_iff.1 hq
  have hslot : twinSession.slots.lookup "region" = some (.region 0) := by decide +kernel
  have hslot' : twinSession.slots.lookup "twin" = some (.region 1) := by decide +kernel
  exact ⟨⟨p, regionIn?_eq_some_iff.2 ⟨hid ▸ hslot, hid ▸ hp⟩, hid⟩,
    ⟨q, regionIn?_eq_some_iff.2 ⟨hid' ▸ hslot', hid' ▸ hq⟩, hid'⟩⟩

theorem equality_laws_twinSession :
    twinSession.Reached ∧ twinSession.Compared 0 1 true ∧
      (step true (.equal (.slot "twin") (.slot "region")) twinSession).1.answer = .ok (.truth true) ∧
      twinSession.Congruent false "region" "twin" "region" "twin" := by
  have hs : twinSession.Reached := reached_twinMade.run false _
  obtain ⟨hregion, htwin⟩ := names_twinSession
  have hlaws := equality_laws hs
  refine ⟨hs, compared_twinSession, ?_, ?_⟩
  · rw [hlaws.symm true "region" "twin" 0 1 hregion htwin]
    exact hlaws.stays 0 1 true compared_twinSession true "region" "twin" hregion htwin
  · exact hlaws.congruent 0 1 0 1 compared_twinSession compared_twinSession false _ _ _ _ hregion htwin
      hregion htwin

end Session

end RegionCalculus
