import RegionCalculus.Proofs.Chains
import RegionCalculus.Proofs.TokenGame

/-!
# Purification

Purifying a region forgets everything but its net weights: what an event both takes and puts, and the
marking that was given. So regions with the same net weights have equal purifications, and a region
equals its own purification exactly if nothing was there to forget.

* `Weights.ofNet_inj`, `Sized.ofNet_eq_self_iff`: pure weights are a normal form.
* `System.Normal`: the normal marking, which depends on the net weights alone.
* `Session.Ready u S events s`: a steady session whose utility `u` has these events.
* `Session.Stands s name i R`, `Weighs s u name w`: the region in a slot, and what matters of it here.
* `Session.Puts s a s' i R`: `s'` has the region `R` in slot `a`, and in other slots what `s` has.
* `Session.Ready.purify`, `addTo`: what the steps put; `Ready.equal`: what equality then answers.
* `Session.purification_canonical`: purification is a normal form for regions.
-/

namespace RegionCalculus
set_option autoImplicit false

open Attempt

/-! ## Purified weights -/

namespace Weights

variable {n : Nat} {w o : Weights}

/-- Pure weights and net effects determine each other. -/
theorem ofNet_inj {v v' : List Int} : ofNet v = ofNet v' ↔ v = v' := by
  constructor
  · intro h
    rw [← net_ofNet v, h, net_ofNet]
  · intro h
    rw [h]

/-- Where an event does not both take and put, its net effect tells what it takes and what it puts. -/
theorem Sized.ofNet_eq_self (h : w.Sized n) (hpure : w.isPure = true) : ofNet w.net = w := by
  have hsides : ∀ i, max (-w.net.getD i 0) 0 = w.backward.getD i 0 ∧
      max (w.net.getD i 0) 0 = w.forward.getD i 0 := by
    intro i
    have hnet := h.getD_net i
    have hmin := h.min_getD hpure i
    omega
  refine Weights.ext ?_ ?_
  · refine eq_of_getD h.ofNet_net.backward h.backward fun i => ?_
    rw [ofNet_eq]
    exact (List.getD_map w.net 0 fun x => max (-x) 0).trans (hsides i).1
  · refine eq_of_getD h.ofNet_net.forward h.forward fun i => ?_
    rw [ofNet_eq]
    exact (List.getD_map w.net 0 fun x => max x 0).trans (hsides i).2

theorem Sized.ofNet_eq_self_iff (h : w.Sized n) : ofNet w.net = w ↔ w.isPure = true := by
  refine ⟨fun heq => ?_, h.ofNet_eq_self⟩
  rw [← heq]
  exact isPure_ofNet w.net

/-- Factors of different signs leave loops behind, but these do not show in the net effect. -/
theorem net_addScaled_addScaled (h : w.Sized n) (ho : o.Sized n) (j k : Int) :
    ((w.addScaled o j).addScaled o k).net = (w.addScaled o (j + k)).net := by
  have hj := h.addScaled ho j
  refine eq_of_getD (hj.addScaled ho k).length_net (h.addScaled ho (j + k)).length_net
    fun i => ?_
  rw [getD_net_addScaled hj ho, getD_net_addScaled h ho, getD_net_addScaled h ho]
  ring

end Weights

/-! ## The normal marking -/

/-- The least marking at which no reachable state falls below zero. -/
def System.Normal (S : System) (init : Value) (events : List String) (net : List Int) (n : Int) :
    Prop :=
  ∀ k, n ≤ k ↔ 0 ≤ k ∧
    ∀ q, S.lts.Reach init.key q → 0 ≤ k + S.lts.treePotential init.key events net q

theorem System.Normal.unique {S : System} {init : Value} {events : List String} {net : List Int}
    {m n : Int} (hm : S.Normal init events net m) (hn : S.Normal init events net n) : m = n := by
  have hbounds : ∀ k, m ≤ k ↔ n ≤ k := fun k => (hm k).trans (hn k).symm
  exact le_antisymm ((hbounds n).2 le_rfl) ((hbounds m).1 le_rfl)

/-- A purified region of a utility, with the marking `n`. -/
def Region.normal (u : UtilityId) (w : Weights) (n : Int) : Region :=
  { utility := u, weights := .ofNet w.net, given := some n }

namespace Session

variable {s s' s₁ : Session} {u : UtilityId} {S : System} {events : List String} {init : Value}
  {on on' other a b : SlotName} {i j : RegionId} {R T : Region} {p q : PlacedRegion} {m n : Int}
  {w v : Weights}

/-! ## Regions in slots -/

/-- The slot refers to region `i`, which is `R`. -/
structure Stands (s : Session) (name : SlotName) (i : RegionId) (R : Region) : Prop where
  slot : s.slots.lookup name = some (.region i)
  region : s.regions[i]? = some R

theorem stands_of_regionIn? (h : s.regionIn? on = some p) :
    s.Stands on p.id p.holding.region := by
  obtain ⟨hslot, hp⟩ := regionIn?_eq_some_iff.1 h
  exact ⟨hslot, (region?_eq_some_iff.1 hp).2.1⟩

theorem Stands.lt (h : s.Stands on i R) : i < s.regions.length :=
  (List.getElem?_eq_some_iff.1 h.region).1

/-- `s'` has the region `R` as region `i` in slot `a`, and the other slots as `s` has them. -/
structure Puts (s : Session) (a : SlotName) (s' : Session) (i : RegionId) (R : Region) : Prop where
  slot : s'.Stands a i R
  others : ∀ name j T, name ≠ a → s.Stands name j T → s'.Stands name j T

theorem stands_place (h : s.Stands on j T) (hne : on ≠ a) (r : Ref) :
    (s.place (some a) r).Stands on j T where
  slot := (lookup_place_ne (fun e => hne (Option.some.inj e).symm) s r).trans h.slot
  region := h.region

theorem puts_place (h : s.Stands on i R) (a : SlotName) :
    s.Puts a (s.place (some a) (.region i)) i R where
  slot := ⟨lookup_place_self s a _, h.region⟩
  others := fun _ _ _ hne hname => stands_place hname hne _

/-- A new region is put into its slot; on the way only a utility may have changed. -/
theorem puts_withRegion (hslots : s₁.slots = s.slots) (hregions : s₁.regions = s.regions)
    (a : SlotName) (R : Region) :
    s.Puts a ((s₁.withRegion R).place (some a) (.region s₁.regions.length)) s.regions.length R where
  slot := by
    rw [← hregions]
    exact ⟨lookup_place_self _ a _, List.getElem?_concat_length⟩
  others := fun name j T hne h => by
    have hold : (s₁.withRegion R).Stands name j T := by
      refine ⟨(congrArg (List.lookup name) hslots).trans h.slot, ?_⟩
      have hlt : j < s₁.regions.length := hregions ▸ h.lt
      exact (List.getElem?_append_left hlt).trans (hregions ▸ h.region)
    exact stands_place hold hne _

/-- In the slot is a region of utility `u` with the weights `w`. -/
def Weighs (s : Session) (u : UtilityId) (name : SlotName) (w : Weights) : Prop :=
  ∃ i R, s.Stands name i R ∧ R.utility = u ∧ R.weights = w

theorem weighs_of_regionIn? (h : s.regionIn? on = some p) (hu : p.holding.region.utility = u) :
    s.Weighs u on p.holding.region.weights := ⟨_, _, stands_of_regionIn? h, hu, rfl⟩

/-! ## Steady sessions with given events -/

/-- A steady session whose utility `u` has the given events. -/
structure Ready (u : UtilityId) (S : System) (events : List String) (s : Session) : Prop where
  steady : s.Steady u S
  settled : ∃ U, s.Settled u S U ∧ U.events = events

theorem Steady.ready (hs : s.Steady u S) : ∃ events, s.Ready u S events := by
  obtain ⟨U, hU⟩ := hs.settled
  exact ⟨U.events, hs, U, hU, rfl⟩

/-- Commands to regions do not change the system or the events. -/
theorem Ready.toRegion (hs : s.Ready u S events) (watched : Bool) (on : SlotName)
    (c : RegionCommand) : (step watched (.toRegion on c) s).2.Ready u S events := by
  obtain ⟨U, hU, hevents⟩ := hs.settled
  have hleads : (perform watched (.toRegion on c)).Leads Touch s :=
    perform_leads (fun _ _ h => by cases h) watched s
  obtain ⟨U', hU'⟩ := hU.touches hleads
  obtain ⟨p', hp', hbecomes⟩ := touches_utility? hleads hs.steady.reached.rooted hU.placed
  obtain rfl := Option.some.inj (hU'.placed.symm.trans hp')
  refine ⟨.step watched _ hs.steady ?_, U', hU', hbecomes.events.trans hevents⟩
  exact congrArg (Option.map PlacedUtility.system) hU'.placed

theorem Ready.placed (hs : s.Ready u S events) (hon : s.Stands on i R) (hu : R.utility = u) :
    ∃ U, s.Settled u S U ∧ U.events = events ∧ s.regionIn? on = some ⟨i, ⟨R, U⟩, S⟩ := by
  obtain ⟨U, hU, hevents⟩ := hs.settled
  refine ⟨U, hU, hevents, regionIn?_eq_some_iff.2 ⟨hon.slot, region?_eq_some_iff.2
    ⟨rfl, hon.region, ?_⟩⟩⟩
  rw [PlacedRegion.owner, hu]
  exact hU.placed

theorem Ready.sized (hs : s.Ready u S events) (hon : s.Weighs u on w) : w.Sized events.length := by
  obtain ⟨i, R, hon, hu, rfl⟩ := hon
  obtain ⟨U, hU, rfl, hp⟩ := hs.placed hon hu
  obtain ⟨_, _, hR⟩ := hU.region (region?_of_regionIn? hp) hu
  exact ⟨hR.backward_length, hR.forward_length⟩

/-! ## Answers -/

/-- What a region in a slot answers, `n` being the normal marking of its net weights. -/
structure Tells (watched : Bool) (s : Session) (S : System) (init : Value) (events : List String)
    (on : SlotName) (R : Region) (c : Bool) (n : Int) : Prop where
  consistent : (step watched (.toRegion on .isConsistent) s).1.answer = .ok (.truth c)
  initial : (step watched (.toRegion on .initialMarking) s).1.answer = .ok (.number (R.given.getD n))
  normal : (step watched (.toRegion on .normalMarking) s).1.answer = .ok (.number n)
  isPure : (step watched (.toRegion on .isPure) s).1.answer = .ok (.truth R.weights.isPure)
  net : (step watched (.toRegion on .net) s).1.answer = .ok (.numbers R.weights.net)
  consistent_iff : c = true ↔ S.lts.Potential init.key (weightOf events R.weights.net)
    (S.lts.treePotential init.key events R.weights.net)
  least : S.Normal init events R.weights.net n

theorem Ready.tells (hs : s.Ready u S events) (hi : S.initial? = .ok init)
    (hon : s.Stands on i R) (hu : R.utility = u) (watched : Bool) :
    ∃ c n, Tells watched s S init events on R c n := by
  obtain ⟨U, hU, rfl, hp⟩ := hs.placed hon hu
  obtain ⟨c, m, n, h⟩ := hU.answers watched hs.steady.valid hi (region?_of_regionIn? hp) hu
  have hstep := fun c => (step_toRegion hp watched c).1
  refine ⟨c, n, (hstep _).trans h.consistent, ?_, (hstep _).trans h.normal, (hstep _).trans rfl,
    (hstep _).trans rfl, h.consistent_iff, h.least⟩
  rw [hstep, h.initial, h.given]

/-- Different regions are equal if their weights and their initial markings are. -/
theorem Ready.equal (hs : s.Ready u S events) (hi : S.initial? = .ok init)
    (ha : s.Stands a i R) (hb : s.Stands b j T) (hR : R.utility = u) (hT : T.utility = u)
    (hne : j ≠ i) (hm : S.Normal init events R.weights.net m)
    (hn : S.Normal init events T.weights.net n) (watched : Bool) :
    (step watched (.equal (.slot a) (.slot b)) s).1.answer =
      .ok (.truth (decide (T.weights = R.weights ∧ T.given.getD n = R.given.getD m))) := by
  obtain ⟨U, hU, rfl, hp⟩ := hs.placed ha hR
  obtain ⟨V, hV, _, hq⟩ := hs.placed hb hT
  obtain ⟨_, k, k', h⟩ := hU.answers watched hs.steady.valid hi (region?_of_regionIn? hp) hR
  obtain ⟨_, l, l', h'⟩ := hV.answers watched hs.steady.valid hi (region?_of_regionIn? hq) hT
  obtain rfl : U = V := Option.some.inj (hU.utility.symm.trans hV.utility)
  obtain rfl := hm.unique h.least
  obtain rfl := hn.unique h'.least
  by_cases hweights : T.weights = R.weights
  · rw [equal_answer_iff hp hq hne (hT.trans hR.symm) hweights]
    refine ⟨l, k, map_number_eq_ok.1 ?_, map_number_eq_ok.1 ?_, ?_⟩
    · rw [← h'.initial, tellRegion_initialMarking]
      rfl
    · rw [← h.initial, tellRegion_initialMarking]
      rfl
    · simp only [hweights, true_and, h.given, h'.given]
  · rw [equal_slots hp hq, equalRegions, if_neg hne, if_neg fun hsame => hweights hsame.2]
    simp only [hweights, false_and, decide_false]
    rfl

/-! ## Steps -/

def purifyTo (on a : SlotName) : Command := .toRegion on (.purify (some a))

def addTo (on other : SlotName) (k : Int) (a : SlotName) : Command :=
  .toRegion on (.addScaled (.slot other) (.integer k) (some a))

/-- Purifying a region puts the purified region, as a new one. -/
theorem Ready.purify (hs : s.Ready u S events) (hi : S.initial? = .ok init)
    (hon : s.Stands on i R) (hu : R.utility = u) (watched : Bool) (a : SlotName) :
    ∃ n, S.Normal init events R.weights.net n ∧
      (∃ shown, (step watched (purifyTo on a) s).1.answer = .ok (.text shown)) ∧
      s.Puts a (step watched (purifyTo on a) s).2 s.regions.length (.normal u R.weights n) := by
  obtain ⟨U, hU, rfl, hp⟩ := hs.placed hon hu
  have hsized := hs.sized ⟨i, R, hon, hu, rfl⟩
  obtain ⟨n, hanswer, hleast⟩ := Builder.finishNormal_answer (B := ⟨R.utility, .ofNet R.weights.net⟩)
    hU.kept hs.steady.valid hi watched hsized.ofNet_net (Weights.signs_ofNet _)
  rw [Weights.net_ofNet] at hleast
  rw [← Region.purified_eq hsized] at hanswer
  have hproduced : (onUtilityOf ⟨i, ⟨R, U⟩, S⟩ (R.purified S watched) s).answer =
      .ok (.normal u R.weights n) := by
    rw [← hu]
    exact hanswer
  obtain ⟨hstep, hstate⟩ := step_toRegion hp watched (.purify (some a))
  refine ⟨n, hleast, ?_, ?_⟩
  · rw [purifyTo, hstep, tellRegion, answer_bind_of_ok hproduced]
    exact ⟨_, rfl⟩
  · have hslots : (onUtilityOf ⟨i, ⟨R, U⟩, S⟩ (R.purified S watched) s).state.slots = s.slots := rfl
    rw [purifyTo, hstate, tellRegion, state_bind_of_ok hproduced, produce_apply]
    exact puts_withRegion hslots rfl a _

/-- A sum with the factor 0 puts the region itself, and any other sum puts a new one. -/
theorem Ready.puts_sum (hs : s.Ready u S events) (hon : s.Stands on i R)
    (hother : s.Stands other j T) (hR : R.utility = u) (hT : T.utility = u) (watched : Bool)
    (k : Int) (a : SlotName) :
    (∃ shown, (step watched (addTo on other k a) s).1.answer = .ok (.text shown)) ∧
      ∃ i' R', R'.utility = u ∧ R'.weights = R.weights.addScaled T.weights k ∧
        s.Puts a (step watched (addTo on other k a) s).2 i' R' := by
  obtain ⟨U, hU, _, hp⟩ := hs.placed hon hR
  obtain ⟨V, hV, _, hq⟩ := hs.placed hother hT
  obtain rfl : U = V := Option.some.inj (hU.utility.symm.trans hV.utility)
  have hwell := hs.steady.reached.wellMade.regions _ _ (region?_of_regionIn? hp)
  have hwell' := hs.steady.reached.wellMade.regions _ _ (region?_of_regionIn? hq)
  obtain ⟨hstep, hstate⟩ :=
    step_toRegion hp watched (.addScaled (.slot other) (.integer k) (some a))
  rw [addTo, hstep, hstate, addScaled_apply hwell hwell' (hT.trans hR.symm) hq]
  by_cases hk : k = 0
  · rw [if_pos hk, hk, hwell.sized.addScaled_zero hwell'.sized]
    exact ⟨⟨_, rfl⟩, i, R, hR, rfl, puts_place hon a⟩
  · rw [if_neg hk, produce_apply]
    exact ⟨⟨_, rfl⟩, _, R.sum T k, hR, rfl, puts_withRegion rfl rfl a _⟩

theorem Ready.addTo (hs : s.Ready u S events) (hon : s.Weighs u on w) (hother : s.Weighs u other v)
    (watched : Bool) (k : Int) (a : SlotName) :
    (∃ shown, (step watched (addTo on other k a) s).1.answer = .ok (.text shown)) ∧
      (step watched (addTo on other k a) s).2.Ready u S events ∧
      (step watched (addTo on other k a) s).2.Weighs u a (w.addScaled v k) ∧
      ∀ name x, name ≠ a → s.Weighs u name x →
        (step watched (addTo on other k a) s).2.Weighs u name x := by
  obtain ⟨i, R, hon, hR, rfl⟩ := hon
  obtain ⟨j, T, hother, hT, rfl⟩ := hother
  obtain ⟨hshown, i', R', hR', hw, hputs⟩ := hs.puts_sum hon hother hR hT watched k a
  refine ⟨hshown, hs.toRegion watched on _, ⟨i', R', hputs.slot, hR', hw⟩, ?_⟩
  rintro name x hne ⟨l, Q, hname, hQ, hx⟩
  exact ⟨l, Q, hputs.others name l Q hne hname, hQ, hx⟩

/-! ## Runs of commands -/

/-- All commands are answered, the last one with `x`. -/
def EndsWith (watched : Bool) (s : Session) (cs : List Command) (x : Answer) : Prop :=
  Answered (run watched cs s).1 ∧ (run watched cs s).1.getLast?.map (·.answer) = some (.ok x)

variable {watched c : Bool} {d : Command} {cs : List Command} {x : Answer}

theorem endsWith_single (h : (step watched d s).1.answer = .ok x) : EndsWith watched s [d] x :=
  ⟨answered_cons h answered_nil, congrArg some h⟩

theorem EndsWith.cons (h : EndsWith watched (step watched d s).2 cs x)
    (hd : ∃ y, (step watched d s).1.answer = .ok (.text y)) : EndsWith watched s (d :: cs) x := by
  obtain ⟨y, hy⟩ := hd
  obtain ⟨hanswered, hlast⟩ := h
  refine ⟨answered_cons hy hanswered, ?_⟩
  rw [run, List.getLast?_cons]
  cases hresults : (run watched cs (step watched d s).2).1.getLast? with
  | none => rw [hresults] at hlast; cases hlast
  | some r => rw [hresults] at hlast; exact hlast

/-- Purifies two regions into two slots, and compares what is there. -/
def purifyBoth (on on' a b : SlotName) : List Command :=
  [purifyTo on a, purifyTo on' b, .equal (.slot a) (.slot b)]

/-- Adds `j` times and then `k` times a region, adds `j + k` times the region, and compares the
purified sums. -/
def addBoth (on other : SlotName) (j k : Int) (a b : SlotName) : List Command :=
  addTo on other j a :: addTo a other k a :: addTo on other (j + k) b :: purifyBoth a b a b

/-! ## Purified regions -/

/-- The purified region answers about cycles and about its normal marking as the region does. -/
theorem Ready.tells_purified (hs : s.Ready u S events) (hi : S.initial? = .ok init)
    (hon : s.Stands on i R) (hu : R.utility = u) (h : Tells watched s S init events on R c n)
    (a : SlotName) :
    (∃ shown, (step watched (purifyTo on a) s).1.answer = .ok (.text shown)) ∧
      s.Puts a (step watched (purifyTo on a) s).2 s.regions.length (.normal u R.weights n) ∧
      Tells watched (step watched (purifyTo on a) s).2 S init events a (.normal u R.weights n) c
        n := by
  obtain ⟨n', hn', hshown, hputs⟩ := hs.purify hi hon hu watched a
  obtain rfl := h.least.unique hn'
  obtain ⟨c', k, h'⟩ := (hs.toRegion watched on _).tells hi hputs.slot rfl watched
  have hnet : (Region.normal u R.weights n).weights.net = R.weights.net := Weights.net_ofNet _
  have hleast := h'.least
  have hconsistent := h'.consistent_iff
  rw [hnet] at hleast hconsistent
  obtain rfl : n = k := h.least.unique hleast
  obtain rfl : c = c' := Bool.eq_iff_iff.2 (h.consistent_iff.trans hconsistent.symm)
  exact ⟨hshown, hputs, h'⟩

/-- A purified region equals the region itself, in either order, if nothing was forgotten. -/
theorem Ready.equal_purified (hs : s.Ready u S events) (hi : S.initial? = .ok init)
    (hon : s.Stands on i R) (hu : R.utility = u) (h : Tells watched s S init events on R c n)
    (hne : a ≠ on) :
    EndsWith watched s [purifyTo on a, .equal (.slot a) (.slot on)]
        (.truth (decide (R.weights.isPure = true ∧ R.given.getD n = n))) ∧
      EndsWith watched s [purifyTo on a, .equal (.slot on) (.slot a)]
        (.truth (decide (R.weights.isPure = true ∧ R.given.getD n = n))) := by
  obtain ⟨hshown, hputs, h'⟩ := hs.tells_purified hi hon hu h a
  have hs' : (step watched (purifyTo on a) s).2.Ready u S events := hs.toRegion watched on _
  have hon' := hputs.others on i R hne.symm hon
  have hself := (hs.sized ⟨i, R, hon, hu, rfl⟩).ofNet_eq_self_iff
  constructor
  · refine (endsWith_single ?_).cons hshown
    rw [hs'.equal hi hputs.slot hon' rfl hu (Nat.ne_of_lt hon.lt) h'.least h.least]
    simp only [Region.normal, Option.getD_some, eq_comm (a := R.weights), hself]
  · refine (endsWith_single ?_).cons hshown
    rw [hs'.equal hi hon' hputs.slot hu rfl (Nat.ne_of_gt hon.lt) h.least h'.least]
    simp only [Region.normal, Option.getD_some, eq_comm (a := n), hself]

/-- Equality of two purified regions tells whether their net weights agree. -/
theorem Ready.equal_purifyBoth (hs : s.Ready u S events) (hi : S.initial? = .ok init)
    (hon : s.Weighs u on w) (hon' : s.Weighs u on' v) (watched : Bool) (hab : a ≠ b)
    (ha : a ≠ on') :
    EndsWith watched s (purifyBoth on on' a b) (.truth (decide (w.net = v.net))) := by
  obtain ⟨i, R, hon, hR, rfl⟩ := hon
  obtain ⟨j, T, hon', hT, rfl⟩ := hon'
  obtain ⟨c, m, h⟩ := hs.tells hi hon hR watched
  obtain ⟨hshown, hputs, hm⟩ := hs.tells_purified hi hon hR h a
  have hs₁ : (step watched (purifyTo on a) s).2.Ready u S events := hs.toRegion watched on _
  have hother := hputs.others on' j T ha.symm hon'
  obtain ⟨d, n, h'⟩ := hs₁.tells hi hother hT watched
  obtain ⟨hshown', hputs', hn⟩ := hs₁.tells_purified hi hother hT h' b
  have hs₂ : (step watched (purifyTo on' b) (step watched (purifyTo on a) s).2).2.Ready u S events :=
    hs₁.toRegion watched on' _
  have hfirst := hputs'.others a _ _ hab hputs.slot
  refine ((endsWith_single ?_).cons hshown').cons hshown
  rw [hs₂.equal hi hfirst hputs'.slot rfl rfl (Nat.ne_of_gt hputs.slot.lt) hm.least hn.least]
  have hsame : Weights.ofNet T.weights.net = .ofNet R.weights.net ∧ n = m ↔
      R.weights.net = T.weights.net := by
    rw [Weights.ofNet_inj, eq_comm]
    refine and_iff_left_of_imp fun hnet => ?_
    exact h'.least.unique (hnet ▸ h.least)
  simp only [Region.normal, Option.getD_some, hsame]

/-- What purifying the region `p` in slot `on` amounts to: a pure region of the same net weights, the
same consistency and the same normal marking. It equals `p` exactly if `p` was pure and had its normal
marking, and it equals its own purification. -/
structure Purifies (watched : Bool) (s : Session) (on : SlotName) (p : PlacedRegion) : Prop where
  isPure : ∀ a, EndsWith watched s [purifyTo on a, .toRegion a .isPure] (.truth true)
  net : ∀ a, EndsWith watched s [purifyTo on a, .toRegion a .net]
    (.numbers p.holding.region.weights.net)
  consistent : ∃ c, EndsWith watched s [.toRegion on .isConsistent] (.truth c) ∧
    ∀ a, EndsWith watched s [purifyTo on a, .toRegion a .isConsistent] (.truth c)
  markings : ∃ m n, EndsWith watched s [.toRegion on .initialMarking] (.number m) ∧
    EndsWith watched s [.toRegion on .normalMarking] (.number n) ∧
    (∀ a, EndsWith watched s [purifyTo on a, .toRegion a .normalMarking] (.number n)) ∧
    ∀ a, a ≠ on →
      EndsWith watched s [purifyTo on a, .equal (.slot a) (.slot on)]
          (.truth (decide (p.holding.region.weights.isPure = true ∧ m = n))) ∧
        EndsWith watched s [purifyTo on a, .equal (.slot on) (.slot a)]
          (.truth (decide (p.holding.region.weights.isPure = true ∧ m = n)))
  idempotent : ∀ a b, a ≠ b →
    EndsWith watched s [purifyTo on a, purifyTo a b, .equal (.slot b) (.slot a)] (.truth true)

theorem Ready.purifies (hs : s.Ready u S events) (hi : S.initial? = .ok init)
    (hon : s.regionIn? on = some p) (hu : p.holding.region.utility = u) (watched : Bool) :
    s.Purifies watched on p := by
  have hstands := stands_of_regionIn? hon
  obtain ⟨c, n, h⟩ := hs.tells hi hstands hu watched
  have hask : ∀ a (q : RegionCommand) (x : Answer),
      (step watched (.toRegion a q) (step watched (purifyTo on a) s).2).1.answer = .ok x →
      EndsWith watched s [purifyTo on a, .toRegion a q] x := fun a q x hx =>
    (endsWith_single hx).cons (hs.tells_purified hi hstands hu h a).1
  have htells := fun a => (hs.tells_purified hi hstands hu h a).2.2
  refine ⟨fun a => hask a _ _ ?_, fun a => hask a _ _ ?_,
    ⟨c, endsWith_single h.consistent, fun a => hask a _ _ (htells a).consistent⟩,
    ⟨_, n, endsWith_single h.initial, endsWith_single h.normal,
      fun a => hask a _ _ (htells a).normal, fun a hne => hs.equal_purified hi hstands hu h hne⟩,
    fun a b hne => ?_⟩
  · rw [(htells a).isPure, Region.normal, Weights.isPure_ofNet]
  · rw [(htells a).net, Region.normal, Weights.net_ofNet]
  · -- nothing is left to forget in the purified region
    obtain ⟨hshown, hputs, h'⟩ := hs.tells_purified hi hstands hu h a
    have hagain := ((hs.toRegion watched on _).equal_purified hi hputs.slot rfl h' hne.symm).1
    have htrue : (Region.normal u p.holding.region.weights n).weights.isPure = true ∧
        (Region.normal u p.holding.region.weights n).given.getD n = n :=
      ⟨Weights.isPure_ofNet _, rfl⟩
    rw [decide_eq_true htrue] at hagain
    exact hagain.cons hshown

/-- Sums that add the same multiple of a region in two steps and in one are equal when purified. -/
theorem Ready.equal_addBoth (hs : s.Ready u S events) (hi : S.initial? = .ok init)
    (hon : s.Weighs u on w) (hother : s.Weighs u other v) (watched : Bool) (j k : Int)
    (ha : a ≠ on) (ha' : a ≠ other) (hab : a ≠ b) :
    EndsWith watched s (addBoth on other j k a b) (.truth true) := by
  obtain ⟨hshown₁, hs₁, hsum₁, hkeeps₁⟩ := hs.addTo hon hother watched j a
  have hon₁ := hkeeps₁ on w ha.symm hon
  have hother₁ := hkeeps₁ other v ha'.symm hother
  obtain ⟨hshown₂, hs₂, hsum₂, hkeeps₂⟩ := hs₁.addTo hsum₁ hother₁ watched k a
  have hon₂ := hkeeps₂ on w ha.symm hon₁
  have hother₂ := hkeeps₂ other v ha'.symm hother₁
  obtain ⟨hshown₃, hs₃, hsum₃, hkeeps₃⟩ := hs₂.addTo hon₂ hother₂ watched (j + k) b
  have hequal := hs₃.equal_purifyBoth hi (hkeeps₃ a _ hab hsum₂) hsum₃ watched hab hab
  rw [decide_eq_true (Weights.net_addScaled_addScaled (hs.sized hon) (hs.sized hother) j k)] at hequal
  exact ((hequal.cons hshown₃).cons hshown₂).cons hshown₁

/-- Purification is a normal form for the regions of a utility whose system is as it was when the
utility was made. It is a pure region that keeps the net weights, the consistency and the normal
marking, equality of purified regions is equality of net weights, and multiples of a region, of
whatever sign, add up under it. -/
theorem purification_canonical (watched : Bool) (hs : s.Steady u S) (hi : S.initial? = .ok init) :
    (∀ on p, s.regionIn? on = some p → p.holding.region.utility = u → s.Purifies watched on p) ∧
    ∀ on on' p q, s.regionIn? on = some p → p.holding.region.utility = u →
      s.regionIn? on' = some q → q.holding.region.utility = u →
      (∀ a b, a ∉ [on', b] → EndsWith watched s (purifyBoth on on' a b)
        (.truth (decide (p.holding.region.weights.net = q.holding.region.weights.net)))) ∧
      ∀ j k a b, a ∉ [on, on', b] → EndsWith watched s (addBoth on on' j k a b) (.truth true) := by
  obtain ⟨events, hready⟩ := hs.ready
  refine ⟨fun on p hp hu => hready.purifies hi hp hu watched, ?_⟩
  intro on on' p q hp hu hq hu'
  have hon := weighs_of_regionIn? hp hu
  have hon' := weighs_of_regionIn? hq hu'
  constructor
  · intro a b ha
    simp only [List.mem_cons, List.not_mem_nil, or_false, not_or] at ha
    exact hready.equal_purifyBoth hi hon hon' watched ha.2 ha.1
  · intro j k a b ha
    simp only [List.mem_cons, List.not_mem_nil, or_false, not_or] at ha
    exact hready.equal_addBoth hi hon hon' watched j k ha.1 ha.2.1 ha.2.2

theorem purification_canonical_craft :
    craftSession.Steady 0 ringSystem ∧ ringSystem.initial? = .ok (.text "s0") ∧
      craftSession.Purifies false "other" craftRegion ∧
      EndsWith false craftSession (purifyBoth "region" "other" "a" "b") (.truth false) ∧
      EndsWith false craftSession (addBoth "region" "other" 2 (-3) "a" "b") (.truth true) := by
  obtain ⟨hone, htwo⟩ := purification_canonical false steady_craftSession
    (show ringSystem.initial? = .ok (.text "s0") from rfl)
  obtain ⟨hboth, hadd⟩ := htwo "region" "other" ringRegion craftRegion rfl rfl rfl rfl
  exact ⟨steady_craftSession, rfl, hone "other" craftRegion rfl rfl, hboth "a" "b" (by decide),
    hadd 2 (-3) "a" "b" (by decide)⟩

end Session

end RegionCalculus
