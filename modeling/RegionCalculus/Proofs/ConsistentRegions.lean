import RegionCalculus.Proofs.Steadiness

/-!
# Cycle-consistent regions

What a region of a steady session answers about cycles and runs.

* `PlacedRegion.takes p e`, `puts p e`, `net p e`: the weights of a region, by label.
* `Session.Settled.answers`: what a region of a settled utility answers.
* `Session.isConsistent_iff_closed_walks`: a region is consistent exactly if no closed walk has an
  effect.
* `Session.isConsistent_iff_runs`: a region is consistent exactly if every run to a state has the
  effect that the marking of the state says.
-/

namespace RegionCalculus.Session
set_option autoImplicit false

/-! ## Weights by label -/

def PlacedRegion.takes (p : PlacedRegion) : String → Int :=
  weightOf p.holding.utility.events p.holding.region.weights.backward

def PlacedRegion.puts (p : PlacedRegion) : String → Int :=
  weightOf p.holding.utility.events p.holding.region.weights.forward

def PlacedRegion.net (p : PlacedRegion) : String → Int :=
  weightOf p.holding.utility.events p.holding.region.weights.net

theorem resolve?_of_mem {U : RegionUtility} {e : String} (he : e ∈ U.events) :
    U.resolve? (.text e) = .ok (U.events.idxOf e) := by
  simp only [RegionUtility.resolve?, RegionUtility.eventIndex?, idxOf?_of_mem he]

variable {u : UtilityId} {S : System} {U : RegionUtility} {s : Session} {r : RegionId}
  {p : PlacedRegion} {init : Value}

/-! ## Answers to commands -/

/-- The weights by label are what the region answers. -/
theorem tellRegion_weights (watched : Bool) {e : String} (he : e ∈ p.holding.utility.events) :
    (tellRegion watched p (.backwardOf (.text e)) s).answer = .ok (.number (p.takes e)) ∧
      (tellRegion watched p (.forwardOf (.text e)) s).answer = .ok (.number (p.puts e)) ∧
        (tellRegion watched p (.netOf (.text e)) s).answer = .ok (.number (p.net e)) := by
  simp only [tellRegion, Attempt.answer_bind_pure, Attempt.ofExcept_apply, resolve?_of_mem he]
  exact ⟨rfl, rfl, rfl⟩

theorem tellRegion_isConsistent (watched : Bool) :
    (tellRegion watched p .isConsistent s).answer =
      (Region.isConsistent p.system p.holding).answer.map .truth :=
  Attempt.answer_bind_pure _ _ _

theorem tellRegion_initialMarking (watched : Bool) :
    (tellRegion watched p .initialMarking s).answer =
      (Region.initialMarking p.system p.holding).answer.map .number :=
  Attempt.answer_bind_pure _ _ _

theorem tellRegion_normalMarking (watched : Bool) :
    (tellRegion watched p .normalMarking s).answer =
      (Region.normalMarking p.system p.holding).answer.map .number :=
  Attempt.answer_bind_pure _ _ _

theorem tellRegion_markingOf (watched : Bool) (v : Value) :
    (tellRegion watched p (.markingOf v) s).answer =
      (Region.markingOf p.system v p.holding).answer.map .number :=
  Attempt.answer_bind_pure _ _ _

/-! ## Regions of a settled utility -/

/-- A region of a settled utility is in step with the system, and so is its utility. -/
theorem Settled.region (hs : s.Settled u S U) (hp : s.region? r = some p)
    (hu : p.holding.region.utility = u) :
    p.system = S ∧ p.holding.utility.InStep S ∧
      p.holding.region.InStep S p.holding.utility.events := by
  obtain ⟨_, hregion, hutility⟩ := region?_eq_some_iff.1 hp
  obtain ⟨hsame, hsystem⟩ := hs.eq_of_placed hutility hu
  have hsame' : p.holding.utility = U := hsame
  rw [hsame']
  exact ⟨hsystem, hs.kept, hs.regions _ (List.mem_of_getElem? hregion) hu⟩

/-- The net effect of the way to a state in the spanning tree. -/
def PlacedRegion.potential (p : PlacedRegion) (S : System) (init : Value) : Key → Int :=
  S.lts.treePotential init.key p.holding.utility.events p.holding.region.weights.net

/-- A region answers `b` about its consistency, `m` for its initial and `n` for its normal marking,
and for the marking of a reachable state `m` and the potential of the state. -/
structure Answers (watched : Bool) (s : Session) (S : System) (init : Value) (p : PlacedRegion)
    (b : Bool) (m n : Int) : Prop where
  consistent : (tellRegion watched p .isConsistent s).answer = .ok (.truth b)
  initial : (tellRegion watched p .initialMarking s).answer = .ok (.number m)
  normal : (tellRegion watched p .normalMarking s).answer = .ok (.number n)
  marking : ∀ v : Value, S.lts.Reach init.key v.key →
    (tellRegion watched p (.markingOf v) s).answer = .ok (.number (m + p.potential S init v.key))
  consistent_iff : b = true ↔ S.lts.Potential init.key p.net (p.potential S init)
  realised : S.lts.Realised init.key p.net (p.potential S init)
  potential_init : p.potential S init init.key = 0
  given : m = p.holding.region.given.getD n
  least : ∀ k, n ≤ k ↔ 0 ≤ k ∧
    ∀ q, S.lts.Reach init.key q → 0 ≤ k + p.potential S init q

theorem Settled.answers (watched : Bool) (hs : s.Settled u S U) (hS : S.lts.Valid)
    (hi : S.initial? = .ok init) (hp : s.region? r = some p)
    (hu : p.holding.region.utility = u) : ∃ b m n, Answers watched s S init p b m n := by
  obtain ⟨hsystem, hU, hR⟩ := hs.region hp hu
  obtain ⟨b, hb, hconsistent⟩ := Region.isConsistent_answer (R := p.holding.region) hU hS hi
  obtain ⟨m, n, hm, hn, hgiven, hleast, hmarking⟩ := hR.markings_answer hU hS hi
  refine ⟨b, m, n, ?_, ?_, ?_, fun v hv => ?_, hconsistent,
    S.lts.realised_treePotential hS hU.order _, S.lts.treePotential_root hS _, hgiven, hleast⟩
  · rw [tellRegion_isConsistent, hsystem, hb]
    rfl
  · rw [tellRegion_initialMarking, hsystem, hm]
    rfl
  · rw [tellRegion_normalMarking, hsystem, hn]
    rfl
  · rw [tellRegion_markingOf, hsystem, hmarking v hv]
    rfl

/-- The normal marking is the least bound for the potentials of the states that can be reached, and
depends on nothing else. -/
theorem Answers.normal_eq {w₁ w₂ b₁ b₂ : Bool} {s₁ s₂ : Session} {S₁ S₂ : System}
    {init₁ init₂ : Value} {p₁ p₂ : PlacedRegion} {m₁ m₂ n₁ n₂ : Int}
    (h₁ : Answers w₁ s₁ S₁ init₁ p₁ b₁ m₁ n₁) (h₂ : Answers w₂ s₂ S₂ init₂ p₂ b₂ m₂ n₂)
    (hreach : ∀ k, S₁.lts.Reach init₁.key k ↔ S₂.lts.Reach init₂.key k)
    (hpotential : ∀ k, S₁.lts.Reach init₁.key k →
      p₁.potential S₁ init₁ k = p₂.potential S₂ init₂ k) : n₁ = n₂ := by
  have hbounds : ∀ k, n₁ ≤ k ↔ n₂ ≤ k := by
    intro k
    rw [h₁.least, h₂.least]
    refine and_congr_right fun _ => forall_congr' fun q => ?_
    rw [← hreach]
    exact forall_congr' fun hq => by rw [hpotential q hq]
  exact le_antisymm ((hbounds n₂).2 le_rfl) ((hbounds n₁).1 le_rfl)

/-! ## Consistency -/

/-- A region is consistent exactly if no closed walk along arcs out of reachable states has an
effect. -/
theorem isConsistent_iff_closed_walks (watched : Bool) (hs : s.Steady u S)
    (hi : S.initial? = .ok init) (hp : s.region? r = some p)
    (hu : p.holding.region.utility = u) :
    ∃ b, (tellRegion watched p .isConsistent s).answer = .ok (.truth b) ∧
      (∀ a ∈ S.lts.arcs,
        (tellRegion watched p (.netOf (.text a.label)) s).answer = .ok (.number (p.net a.label))) ∧
      (b = true ↔ ∀ x xs, S.lts.Walk init.key x xs x → walkEffect p.net xs = 0) := by
  obtain ⟨U, hU⟩ := hs.settled
  obtain ⟨b, m, n, h⟩ := hU.answers watched hs.valid hi hp hu
  obtain ⟨_, hkept, _⟩ := hU.region hp hu
  refine ⟨b, h.consistent, fun a ha => ?_, ?_⟩
  · exact (tellRegion_weights watched (hkept.order.label_mem a ha)).2.2
  · rw [h.consistent_iff]
    exact Lts.potential_iff_closed_walks h.realised

theorem isConsistent_iff_closed_walks_ring :
    ringSession.Steady 0 ringSystem ∧ ringSystem.initial? = .ok (.text "s0") ∧
      ringSession.region? 0 = some ringRegion ∧ ringRegion.holding.region.utility = 0 ∧
      ∃ b, (tellRegion false ringRegion .isConsistent ringSession).answer = .ok (.truth b) ∧
        (∀ a ∈ ringSystem.lts.arcs,
          (tellRegion false ringRegion (.netOf (.text a.label)) ringSession).answer =
            .ok (.number (ringRegion.net a.label))) ∧
        (b = true ↔ ∀ x xs, ringSystem.lts.Walk (Value.text "s0").key x xs x →
          walkEffect ringRegion.net xs = 0) :=
  ⟨steady_ringSession, rfl, region?_ringSession, rfl,
    isConsistent_iff_closed_walks false steady_ringSession rfl region?_ringSession rfl⟩

/-- A region is consistent exactly if every run from the initial state has the effect that the
marking of its last state says. Without a given marking, no run of a consistent region then goes
below zero. -/
theorem isConsistent_iff_runs (watched : Bool) (hs : s.Steady u S) (hi : S.initial? = .ok init)
    (hp : s.region? r = some p) (hu : p.holding.region.utility = u) :
    ∃ b m, (tellRegion watched p .isConsistent s).answer = .ok (.truth b) ∧
      (tellRegion watched p .initialMarking s).answer = .ok (.number m) ∧
      (∀ a ∈ S.lts.arcs,
        (tellRegion watched p (.netOf (.text a.label)) s).answer = .ok (.number (p.net a.label))) ∧
      (b = true ↔ ∀ as (v : Value), S.lts.Run init.key as v.key →
        (tellRegion watched p (.markingOf v) s).answer = .ok (.number (m + runEffect p.net as))) ∧
      (p.holding.region.given = none → b = true → ∀ as k, S.lts.Run init.key as k →
        0 ≤ m + runEffect p.net as) := by
  obtain ⟨U, hU⟩ := hs.settled
  obtain ⟨b, m, n, h⟩ := hU.answers watched hs.valid hi hp hu
  obtain ⟨_, hkept, _⟩ := hU.region hp hu
  have hruns := Lts.potential_iff_runs h.realised h.potential_init
  refine ⟨b, m, h.consistent, h.initial, fun a ha => ?_, ?_, fun hgiven hb as k hrun => ?_⟩
  · exact (tellRegion_weights watched (hkept.order.label_mem a ha)).2.2
  · rw [h.consistent_iff, hruns]
    constructor
    · intro heffect as v hrun
      rw [heffect v.key as hrun]
      exact h.marking v (hrun.reach .root)
    · intro hmarking k as hrun
      have hreach := hrun.reach .root
      obtain ⟨v, _, rfl⟩ := List.mem_map.1 (hreach.mem_states hs.valid
        (System.initial_mem hs.valid hi))
      have hanswer := (h.marking v hreach).symm.trans (hmarking as v hrun)
      have hequal := Answer.number.inj (Except.ok.inj hanswer)
      omega
  · have hmn : m = n := by rw [h.given, hgiven, Option.getD_none]
    rw [hruns.1 (h.consistent_iff.1 hb) k as hrun]
    exact ((h.least m).1 (le_of_eq hmn.symm)).2 k (hrun.reach .root)

theorem isConsistent_iff_runs_ring :
    ringSession.Steady 0 ringSystem ∧ ringSystem.initial? = .ok (.text "s0") ∧
      ringSession.region? 0 = some ringRegion ∧ ringRegion.holding.region.utility = 0 ∧
      ∃ b m, (tellRegion false ringRegion .isConsistent ringSession).answer = .ok (.truth b) ∧
        (tellRegion false ringRegion .initialMarking ringSession).answer = .ok (.number m) ∧
        (∀ a ∈ ringSystem.lts.arcs,
          (tellRegion false ringRegion (.netOf (.text a.label)) ringSession).answer =
            .ok (.number (ringRegion.net a.label))) ∧
        (b = true ↔ ∀ as (v : Value), ringSystem.lts.Run (Value.text "s0").key as v.key →
          (tellRegion false ringRegion (.markingOf v) ringSession).answer =
            .ok (.number (m + runEffect ringRegion.net as))) ∧
        (ringRegion.holding.region.given = none → b = true → ∀ as k,
          ringSystem.lts.Run (Value.text "s0").key as k → 0 ≤ m + runEffect ringRegion.net as) :=
  ⟨steady_ringSession, rfl, region?_ringSession, rfl,
    isConsistent_iff_runs false steady_ringSession rfl region?_ringSession rfl⟩

end RegionCalculus.Session
