import RegionCalculus.Proofs.ConsistentRegions
import RegionCalculus.Proofs.Slots

/-!
# Equality of regions

Two regions of one utility with the same weights are equal if their initial markings are. The markings
are derived one after the other, and what the first keeps in the utility does not change the second.

* `PlacedRegion.initialAnswer`, `normalAnswer`: the answers of a region about its markings.
* `Region.initialMarking_after`: a marking that is derived first leaves the other one as it was.
* `Session.equal_answer_iff`: what equality answers about two regions with the same weights.
* `Session.TellsNormal watched s name b`: whether the initial marking of a region is its normal one.
* `Session.equal_lazy_iff`: equality with a region that has no marking yet.
-/

namespace RegionCalculus
set_option autoImplicit false

open Attempt

/-! ## Derived markings -/

/-- A marking that the kept vectors tell is answered. -/
theorem RegionUtility.normalMarkingFor_of_keptMarking {S : System} {U : RegionUtility}
    {net : List Int} {m : Int} (h : U.keptMarking? S net = some m) :
    (normalMarkingFor S net U).answer = .ok m := by
  unfold keptMarking? at h
  cases hempty : S.written.states.isEmpty with
  | true =>
    rw [if_pos hempty] at h
    rw [normalMarkingFor_of_empty hempty, ← Option.some.inj h]
    rfl
  | false =>
    rw [if_neg (by simp [hempty])] at h
    obtain ⟨table, htable, rfl⟩ := Option.map_eq_some_iff.1 h
    rw [normalMarkingFor_of_nonempty hempty, answer_bind_pure, parikhVectors_of_some htable]
    rfl

namespace Region

variable {S : System} {h : Holding}

theorem initialMarking_answer_of_none (hm : h.region.marking? = none) :
    (initialMarking S h).answer = (normalMarking S h).answer := by
  rw [initialMarking_of_none hm]
  cases hn : (normalMarking S h).answer with
  | error f => exact answer_bind_of_error hn
  | ok n => exact answer_bind_of_ok hn

/-- Once the marking of a region is derived, a region with the same weights answers what it would
have answered before. -/
theorem initialMarking_after {R R' : Region} {U : RegionUtility} {m : Int}
    (hm : (initialMarking S ⟨R, U⟩).answer = .ok m) (hweights : R'.weights = R.weights) :
    (initialMarking S ⟨R', (initialMarking S ⟨R, U⟩).state.utility⟩).answer =
      (initialMarking S ⟨R', U⟩).answer := by
  cases hR : R.marking? with
  | some k => rw [initialMarking_of_some (h := ⟨R, U⟩) hR]
  | none =>
    cases hR' : R'.marking? with
    | some k =>
      have hgiven : ∀ V, initialMarking S ⟨R', V⟩ = ⟨.ok k, ⟨R', V⟩, []⟩ := fun V =>
        initialMarking_of_some hR'
      rw [hgiven, hgiven]
    | none =>
      -- both derive the normal marking of the same net weights, the second from the kept vectors
      have hn : (RegionUtility.normalMarkingFor S R.weights.net U).answer = .ok m := by
        rw [← hm, initialMarking_answer_of_none hR, normalMarking_eq, ask_answer]
      have hstate : (initialMarking S ⟨R, U⟩).state.utility =
          (RegionUtility.normalMarkingFor S R.weights.net U).state := by
        have hnormal : (normalMarking S ⟨R, U⟩).answer = .ok m := by
          rw [normalMarking_eq, ask_answer, hn]
        rw [initialMarking_of_none hR, state_bind_of_ok hnormal, normalMarking_eq, ask_state]
        rfl
      have hkept := RegionUtility.normalMarkingFor_of_keptMarking
        (RegionUtility.normalMarkingFor_state hn)
      rw [hstate, initialMarking_answer_of_none hR', initialMarking_answer_of_none hR',
        normalMarking_eq, normalMarking_eq, ask_answer, ask_answer, hweights, hn, hkept]

end Region

/-! ## Two regions of a session -/

namespace Session

variable {α : Type} {s : Session} {p q : PlacedRegion} {name left right : SlotName}

def PlacedRegion.initialAnswer (p : PlacedRegion) : Except Fault Int :=
  (Region.initialMarking p.system p.holding).answer

def PlacedRegion.normalAnswer (p : PlacedRegion) : Except Fault Int :=
  (Region.normalMarking p.system p.holding).answer

/-- The region with its utility as it is later. -/
def PlacedRegion.withUtility (p : PlacedRegion) (U : RegionUtility) : PlacedRegion :=
  ⟨p.id, ⟨p.holding.region, U⟩, p.system⟩

/-- An attempt on one region leaves another region of the utility as it is, except for what the
utility keeps. -/
theorem region?_onRegion_ne {x : Attempt Holding α} (hp : s.region? p.id = some p)
    (hq : s.region? q.id = some q) (hne : q.id ≠ p.id)
    (hsame : q.holding.region.utility = p.holding.region.utility)
    (hx : x.Leads (Holding.Derive q.system) q.holding) :
    (onRegion q x s).state.region? p.id = some (p.withUtility (x q.holding).state.utility) := by
  obtain ⟨_, hR, howner⟩ := region?_eq_some_iff.1 hp
  obtain ⟨_, hU, hS⟩ := utility?_eq_some_iff.1 howner
  obtain ⟨_, _, _, hsystem, _⟩ := Region.derives_frame hx
  have hutility : q.holding.utility = p.holding.utility := (owner_eq howner hq hsame).1
  obtain ⟨hlt, _⟩ := List.getElem?_eq_some_iff.1 hU
  refine region?_eq_some_iff.2 ⟨rfl, (List.getElem?_set_ne hne).trans hR,
    utility?_eq_some_iff.2 ⟨rfl, ?_, ?_⟩⟩
  · change (s.utilities.set q.holding.region.utility _)[p.holding.region.utility]? = _
    rw [hsame]
    exact List.getElem?_set_self hlt
  · change s.systems[(x q.holding).state.utility.system]? = _
    rw [hsystem, hutility]
    exact hS

/-- The markings of two regions, taken one after the other, are those that each of them answers. -/
theorem two_markings (hp : s.region? p.id = some p) (hq : s.region? q.id = some q)
    (hne : q.id ≠ p.id) (hsame : q.holding.region.utility = p.holding.region.utility)
    (hweights : q.holding.region.weights = p.holding.region.weights) {k : Int → Int → α} :
    ((markingOfRegion q.id >>= fun m => markingOfRegion p.id >>= fun n => pure (k m n)) s).answer =
      q.initialAnswer >>= fun m => p.initialAnswer.map (k m) := by
  have hfirst : markingOfRegion q.id s = onRegion q (Region.initialMarking q.system) s :=
    markingOfRegion_eq hq
  cases hm : q.initialAnswer with
  | error f =>
    have herror : (markingOfRegion q.id s).answer = .error f := by
      rw [hfirst]
      exact hm
    exact answer_bind_of_error herror
  | ok m =>
    have hanswer : (markingOfRegion q.id s).answer = .ok m := by
      rw [hfirst]
      exact hm
    have hafter := region?_onRegion_ne hp hq hne hsame
      (Region.initialMarking_leads q.system q.holding)
    obtain ⟨hutility, hsystem⟩ := owner_eq (region?_eq_some_iff.1 hp).2.2 hq hsame
    dsimp only at hutility hsystem
    have hsecond : (markingOfRegion p.id
        (onRegion q (Region.initialMarking q.system) s).state).answer = p.initialAnswer := by
      rw [markingOfRegion_eq hafter]
      change (Region.initialMarking p.system ⟨p.holding.region, _⟩).answer = _
      rw [← hsystem, Region.initialMarking_after hm hweights.symm, hsystem, hutility]
      rfl
    rw [answer_bind_of_ok hanswer, answer_bind_pure, hfirst, hsecond]
    rfl

theorem equal_slots (hleft : s.regionIn? left = some p) (hright : s.regionIn? right = some q)
    (watched : Bool) :
    (step watched (.equal (.slot left) (.slot right)) s).1.answer =
      (equalRegions p q s).answer.map .truth := by
  change (perform watched _ s).answer = _
  rw [perform, answer_bind_pure, equal, bind_of_ok (operand_slot hleft),
    bind_of_ok (operand_slot hright)]

/-- Two regions with the same weights are compared by their initial markings. -/
theorem equal_answer_iff (hleft : s.regionIn? left = some p) (hright : s.regionIn? right = some q)
    (hne : q.id ≠ p.id) (hsame : q.holding.region.utility = p.holding.region.utility)
    (hweights : q.holding.region.weights = p.holding.region.weights) (watched b : Bool) :
    (step watched (.equal (.slot left) (.slot right)) s).1.answer = .ok (.truth b) ↔
      ∃ m n, q.initialAnswer = .ok m ∧ p.initialAnswer = .ok n ∧ b = decide (m = n) := by
  have hp := region?_of_regionIn? hleft
  have hq := region?_of_regionIn? hright
  rw [equal_slots hleft hright, equalRegions, if_neg hne, if_pos ⟨hsame, hweights⟩,
    two_markings hp hq hne hsame hweights]
  cases q.initialAnswer with
  | error f => simp [bind, Except.bind, Except.map]
  | ok m =>
    cases p.initialAnswer with
    | error f => simp [bind, Except.bind, Except.map]
    | ok n => simp [bind, Except.bind, Except.map, eq_comm]

/-! ## Regions without a marking -/

/-- The region in the slot answers about its initial and its normal marking, and `b` tells whether
they agree. -/
def TellsNormal (watched : Bool) (s : Session) (name : SlotName) (b : Bool) : Prop :=
  ∃ m n, (step watched (.toRegion name .initialMarking) s).1.answer = .ok (.number m) ∧
    (step watched (.toRegion name .normalMarking) s).1.answer = .ok (.number n) ∧
      b = decide (m = n)

theorem map_number_eq_ok {x : Except Fault Int} {m : Int} :
    x.map Answer.number = .ok (.number m) ↔ x = .ok m := by
  cases x <;> simp [Except.map]

theorem tellsNormal_iff (hname : s.regionIn? name = some p) (watched b : Bool) :
    s.TellsNormal watched name b ↔
      ∃ m n, p.initialAnswer = .ok m ∧ p.normalAnswer = .ok n ∧ b = decide (m = n) := by
  have hinitial : (step watched (.toRegion name .initialMarking) s).1.answer =
      p.initialAnswer.map .number := by
    rw [(step_toRegion hname watched _).1, tellRegion_initialMarking]
    rfl
  have hnormal : (step watched (.toRegion name .normalMarking) s).1.answer =
      p.normalAnswer.map .number := by
    rw [(step_toRegion hname watched _).1, tellRegion_normalMarking]
    rfl
  simp only [TellsNormal, hinitial, hnormal, map_number_eq_ok]

/-- A region without a marking equals a region with the same weights, in either order, exactly if the
initial marking of that region is its normal one. -/
theorem equal_lazy_iff (hleft : s.regionIn? left = some p) (hright : s.regionIn? right = some q)
    (hne : q.id ≠ p.id) (hsame : q.holding.region.utility = p.holding.region.utility)
    (hweights : q.holding.region.weights = p.holding.region.weights)
    (hlazy : q.holding.region.marking? = none) (watched b : Bool) :
    ((step watched (.equal (.slot left) (.slot right)) s).1.answer = .ok (.truth b) ↔
        s.TellsNormal watched left b) ∧
      ((step watched (.equal (.slot right) (.slot left)) s).1.answer = .ok (.truth b) ↔
        s.TellsNormal watched left b) := by
  obtain ⟨hutility, hsystem⟩ :=
    owner_eq (owner_of_regionIn? hleft) (region?_of_regionIn? hright) hsame
  dsimp only at hutility hsystem
  have hnormal : q.initialAnswer = p.normalAnswer := by
    rw [PlacedRegion.initialAnswer, Region.initialMarking_answer_of_none hlazy,
      PlacedRegion.normalAnswer, Region.normalMarking_eq, Region.normalMarking_eq,
      Region.ask_answer, Region.ask_answer, hsystem, hutility, hweights]
  rw [equal_answer_iff hleft hright hne hsame hweights,
    equal_answer_iff hright hleft hne.symm hsame.symm hweights.symm, tellsNormal_iff hleft, hnormal]
  refine ⟨?_, Iff.rfl⟩
  constructor
  · rintro ⟨m, n, hm, hn, hb⟩
    exact ⟨n, m, hn, hm, by rw [hb, decide_eq_decide, eq_comm]⟩
  · rintro ⟨m, n, hm, hn, hb⟩
    exact ⟨n, m, hn, hm, by rw [hb, decide_eq_decide, eq_comm]⟩

end Session

end RegionCalculus
