import RegionCalculus.Proofs.Arithmetic
import RegionCalculus.Proofs.ConsistentRegions

/-!
# The token game

A region is a place: an event takes tokens from it and puts tokens back. The game follows a run and
is blocked where there are fewer tokens than the next event takes. No query checks for this; for a
pure and consistent region it never happens, because an event that takes puts nothing back, so that
the marking of its target is what remains.

* `play take put m as`: the tokens after the arcs `as`, nothing if the game is blocked.
* `Session.Plays`: along every run, the game ends with the marking of the last state.
* `Session.consistent_region_plays`: pure consistent regions play, and so does the purified region of
  any consistent one.
-/

namespace RegionCalculus
set_option autoImplicit false

def play {ι : Type} (take put : String → Int) (m : Int) : List (Arc ι) → Option Int
  | [] => some m
  | a :: as => if take a.label ≤ m then play take put (m - take a.label + put a.label) as else none

/-- A potential that is never below zero plays, if no event both takes and puts. -/
theorem play_of_potential {ι : Type} {G : Lts ι} {root : ι} {take put w : String → Int}
    {φ : ι → Int} {m : Int} (hφ : G.Potential root w φ) (hw : ∀ e, w e = put e - take e)
    (hpure : ∀ e, min (take e) (put e) = 0) (hpos : ∀ q, G.Reach root q → 0 ≤ m + φ q) {u v : ι}
    {as : List (Arc ι)} (hrun : G.Run u as v) (hu : G.Reach root u) :
    play take put (m + φ u) as = some (m + φ v) := by
  induction hrun with
  | nil u => rfl
  | @cons a as v ha hrest ih =>
    have htarget : G.Reach root a.target := .arc ha hu
    have hstep : φ a.target = φ a.source + (put a.label - take a.label) := by
      rw [hφ a ha hu, hw]
    have henough : take a.label ≤ m + φ a.source := by
      have hsource := hpos a.source hu
      have hnext := hpos a.target htarget
      have hmin := hpure a.label
      omega
    have hnext : m + φ a.source - take a.label + put a.label = m + φ a.target := by omega
    rw [play, if_pos henough, hnext]
    exact ih htarget

/-! ## Finishing a builder -/

namespace Builder

variable {S : System} {U : RegionUtility} {init : Value} {B : Builder}

theorem inspect_answer (hU : U.InStep S) (hS : S.lts.Valid) (hi : S.initial? = .ok init)
    (watched : Bool) : (Attempt.provided watched (B.inspect S) U).answer = .ok () := by
  obtain ⟨b, hb, _⟩ := hU.isConsistent_iff hS hi B.weights.net
  cases watched with
  | false => rfl
  | true =>
    rw [Attempt.provided_true, inspect, Attempt.answer_bind_of_ok hb]
    cases b <;> rfl

/-- Over a valid system, weights that are not negative are finished with their normal marking. -/
theorem finishNormal_answer (hU : U.InStep S) (hS : S.lts.Valid) (hi : S.initial? = .ok init)
    (watched : Bool)
    (hsized : B.weights.Sized U.size)
    (hsigns : (∀ x ∈ B.weights.backward, 0 ≤ x) ∧ ∀ x ∈ B.weights.forward, 0 ≤ x) :
    ∃ n, (B.finishNormal S watched U).answer =
        .ok { utility := B.utility, weights := B.weights, given := some n } ∧
      ∀ k, n ≤ k ↔ 0 ≤ k ∧ ∀ q, S.lts.Reach init.key q →
        0 ≤ k + S.lts.treePotential init.key U.events B.weights.net q := by
  have hinspect := inspect_answer (B := B) hU hS hi watched
  have hfills : (Attempt.provided watched (B.inspect S)).Leads (RegionUtility.Fill S) U :=
    .provided (B.inspect_leads S U)
  have hevents := (RegionUtility.fills_frame hfills).2
  have hU' := hU.fills hfills
  rw [finishNormal, Attempt.answer_bind_of_ok hinspect]
  generalize (Attempt.provided watched (B.inspect S) U).state = U' at *
  obtain ⟨n, hn, hleast⟩ := hU'.normalMarkingFor_least hS hi B.weights.net
  have hsize : (RegionUtility.normalMarkingFor S B.weights.net U').state.size = U'.size :=
    RegionUtility.fills_size (RegionUtility.normalMarkingFor_leads S B.weights.net U')
  have hsize' : U'.size = U.size := congrArg List.length hevents
  rw [hevents] at hleast
  refine ⟨n, ?_, hleast⟩
  rw [Attempt.answer_bind_of_ok hn]
  change Region.ofWeights? B.utility _ B.weights (some n) = _
  rw [hsize, hsize']
  refine Region.ofWeights?_eq hsized hsigns fun k hk => ?_
  rw [← Option.some.inj hk]
  exact ((hleast n).1 le_rfl).1

end Builder

namespace Session

variable {u : UtilityId} {S : System} {U : RegionUtility} {s : Session} {r : RegionId}
  {p : PlacedRegion} {init : Value}

def Plays (watched : Bool) (s : Session) (S : System) (init : Value) (p : PlacedRegion) : Prop :=
  ∃ m, (tellRegion watched p .initialMarking s).answer = .ok (.number m) ∧
    (∀ a ∈ S.lts.arcs,
      (tellRegion watched p (.backwardOf (.text a.label)) s).answer =
          .ok (.number (p.takes a.label)) ∧
        (tellRegion watched p (.forwardOf (.text a.label)) s).answer =
          .ok (.number (p.puts a.label))) ∧
    ∀ as (v : Value), S.lts.Run init.key as v.key →
      ∃ k, (tellRegion watched p (.markingOf v) s).answer = .ok (.number k) ∧
        play p.takes p.puts m as = some k

theorem Settled.plays {watched : Bool} (hs : s.Settled u S U) (hp : s.region? r = some p)
    (hu : p.holding.region.utility = u) {m n : Int}
    (h : Answers watched s S init p true m n) (hpure : p.holding.region.weights.isPure = true)
    (hle : n ≤ m) : Plays watched s S init p := by
  obtain ⟨_, hkept, hR⟩ := hs.region hp hu
  have hsized : p.holding.region.weights.Sized p.holding.utility.size :=
    ⟨hR.backward_length, hR.forward_length⟩
  refine ⟨m, h.initial, fun a ha => ?_, fun as v hrun => ?_⟩
  · obtain ⟨htakes, hputs, _⟩ := tellRegion_weights (s := s) watched (hkept.order.label_mem a ha)
    exact ⟨htakes, hputs⟩
  · refine ⟨m + p.potential S init v.key, h.marking v (hrun.reach .root), ?_⟩
    have hgame := play_of_potential (h.consistent_iff.1 rfl) (fun e => hsized.getD_net _)
      (fun e => hsized.min_getD hpure _) ((h.least m).1 hle).2 hrun .root
    rw [h.potential_init, Int.add_zero] at hgame
    exact hgame

/-- Purifying a region of a settled utility adds a pure region with the same net weights and their
normal marking. -/
theorem Settled.purify (watched : Bool) (hs : s.Settled u S U) (hS : S.lts.Valid)
    (hi : S.initial? = .ok init) (hp : s.region? r = some p)
    (hu : p.holding.region.utility = u) (slot : Keep) :
    ∃ n shown p', (tellRegion watched p (.purify slot) s).answer = .ok (.text shown) ∧
      (tellRegion watched p (.purify slot) s).state.region? s.regions.length = some p' ∧
      p'.holding.region.utility = u ∧ p'.holding.region.given = some n ∧
      p'.holding.region.weights = Weights.ofNet p.holding.region.weights.net ∧
      p'.holding.utility.events = p.holding.utility.events ∧
      ∀ k, n ≤ k ↔ 0 ≤ k ∧ ∀ q, S.lts.Reach init.key q → 0 ≤ k + p.potential S init q := by
  obtain ⟨hsystem, hkept, hR⟩ := hs.region hp hu
  have hutility : s.utility? p.owner.id = some p.owner := (region?_eq_some_iff.1 hp).2.2
  have hsized : p.holding.region.weights.Sized p.holding.utility.size :=
    ⟨hR.backward_length, hR.forward_length⟩
  obtain ⟨n, hanswer, hleast⟩ := Builder.finishNormal_answer
    (B := ⟨p.holding.region.utility, Weights.ofNet p.holding.region.weights.net⟩) hkept hS hi watched
    hsized.ofNet_net (Weights.signs_ofNet _)
  rw [Weights.net_ofNet] at hleast
  have hleads := p.holding.region.purified_leads p.owner.system watched p.owner.utility
  rw [← hsystem, ← Region.purified_eq hsized] at hanswer
  obtain ⟨hshown, hregion⟩ := region?_produced hutility hleads hanswer rfl slot
  exact ⟨n, _, _, hshown, hregion, hu, rfl, rfl, (RegionUtility.fills_frame hleads).2, hleast⟩

theorem Settled.purified_plays (watched : Bool) (hs : s.Settled u S U) (hS : S.lts.Valid)
    (hi : S.initial? = .ok init) (hp : s.region? r = some p)
    (hu : p.holding.region.utility = u) {m n : Int} (h : Answers watched s S init p true m n)
    (slot : Keep) :
    ∃ shown p', (tellRegion watched p (.purify slot) s).answer = .ok (.text shown) ∧
      (tellRegion watched p (.purify slot) s).state.region? s.regions.length = some p' ∧
      Plays watched (tellRegion watched p (.purify slot) s).state S init p' := by
  obtain ⟨k, shown, p', hshown, hregion, hu', hgiven, hweights, hevents, hleast⟩ :=
    hs.purify watched hS hi hp hu slot
  obtain ⟨hid, _⟩ := region?_eq_some_iff.1 hp
  obtain ⟨U', hs'⟩ := hs.touches (tellRegion_leads (hid.symm ▸ hp) watched (.purify slot))
  refine ⟨shown, p', hshown, hregion, ?_⟩
  obtain ⟨b', m', n', h'⟩ := hs'.answers watched hS hi hregion hu'
  -- The net weights are those of `p`, and so are the potential and the consistency.
  have hpotential : p'.potential S init = p.potential S init := by
    simp only [PlacedRegion.potential, hevents, hweights, Weights.net_ofNet]
  have hnet : p'.net = p.net := by
    simp only [PlacedRegion.net, hevents, hweights, Weights.net_ofNet]
  have hb : b' = true := by
    rw [h'.consistent_iff, hpotential, hnet]
    exact h.consistent_iff.1 rfl
  have hle : n' ≤ m' := by
    have hm : m' = k := by rw [h'.given, hgiven, Option.getD_some]
    rw [h'.least, hpotential, hm, ← hleast]
  have hpure : p'.holding.region.weights.isPure = true := by
    rw [hweights]
    exact Weights.isPure_ofNet _
  subst hb
  exact hs'.plays hregion hu' h' hpure hle

/-- On a consistent region that is pure, with an initial marking that is not given or no less than the
normal one, the game is never blocked and ends with the markings of the states. The same holds of the
purified region of any consistent region. -/
theorem consistent_region_plays (watched : Bool) (hs : s.Steady u S) (hi : S.initial? = .ok init)
    (hp : s.region? r = some p) (hu : p.holding.region.utility = u)
    (hconsistent : (tellRegion watched p .isConsistent s).answer = .ok (.truth true)) :
    ((tellRegion watched p .isPure s).answer = .ok (.truth true) →
      (∀ g, p.holding.region.given = some g →
        ∃ n, (tellRegion watched p .normalMarking s).answer = .ok (.number n) ∧ n ≤ g) →
      Plays watched s S init p) ∧
    ∀ slot, ∃ shown p', (tellRegion watched p (.purify slot) s).answer = .ok (.text shown) ∧
      (tellRegion watched p (.purify slot) s).state.region? s.regions.length = some p' ∧
      Plays watched (tellRegion watched p (.purify slot) s).state S init p' := by
  obtain ⟨U, hU⟩ := hs.settled
  obtain ⟨b, m, n, h⟩ := hU.answers watched hs.valid hi hp hu
  obtain rfl : b = true := Answer.truth.inj (Except.ok.inj (h.consistent.symm.trans hconsistent))
  refine ⟨fun hpure hgiven => ?_, hU.purified_plays watched hs.valid hi hp hu h⟩
  have hle : n ≤ m := by
    rw [h.given]
    cases hg : p.holding.region.given with
    | none => exact le_rfl
    | some g =>
      obtain ⟨n', hn', hle⟩ := hgiven g hg
      obtain rfl : n = n' := Answer.number.inj (Except.ok.inj (h.normal.symm.trans hn'))
      exact hle
  exact hU.plays hp hu h (Answer.truth.inj (Except.ok.inj hpure)) hle

theorem consistent_region_plays_ring :
    (tellRegion false ringRegion .isConsistent ringSession).answer = .ok (.truth true) ∧
      Plays false ringSession ringSystem (.text "s0") ringRegion ∧
      ∀ slot, ∃ shown p',
        (tellRegion false ringRegion (.purify slot) ringSession).answer = .ok (.text shown) ∧
        (tellRegion false ringRegion (.purify slot) ringSession).state.region? 1 = some p' ∧
        Plays false (tellRegion false ringRegion (.purify slot) ringSession).state ringSystem
          (.text "s0") p' := by
  have hanswer :
      (Region.isConsistent ringSystem ringRegion.holding).answer.toOption = some true := by
    decide +kernel
  have hconsistent : (tellRegion false ringRegion .isConsistent ringSession).answer =
      .ok (.truth true) := by
    have hsystem : ringRegion.system = ringSystem := rfl
    rw [tellRegion_isConsistent, hsystem]
    cases h : (Region.isConsistent ringSystem ringRegion.holding).answer with
    | error f => simp [h, Except.toOption] at hanswer
    | ok b =>
      obtain rfl : b = true := by simpa [h, Except.toOption] using hanswer
      rfl
  obtain ⟨hplays, hpurified⟩ :=
    consistent_region_plays false steady_ringSession rfl region?_ringSession rfl hconsistent
  exact ⟨hconsistent, hplays rfl (fun g hg => by cases hg), hpurified⟩

end Session

end RegionCalculus
