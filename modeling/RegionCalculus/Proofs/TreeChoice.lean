import RegionCalculus.Proofs.ConsistentRegions

/-!
# The choice of the spanning tree

Systems with the same arcs can have different spanning trees, as the order of the arcs decides which
one a search finds. What regions say about cycles does not depend on it, and neither do the markings
of consistent regions: the net effect of the tree paths is then the one potential that is zero at the
initial state.

* `Lts.Potential.of_arcs`: a potential of one system is one of any system with no other arcs.
* `Lts.Potential.eq_of_realised`: what runs realise agrees with a potential.
* `Session.Comparable.consistent_eq`, `potential_eq`, `normal_eq`: two regions over systems with the
  same arcs.
* `Session.same_arcs_answer_alike`: they answer alike.
-/

namespace RegionCalculus
set_option autoImplicit false

variable {ι : Type}

/-! ## Potentials and arcs -/

namespace Lts

variable {G H : Lts ι} {root : ι} {w : String → Int} {φ ψ : ι → Int}

theorem Reach.of_arcs (harcs : ∀ a ∈ G.arcs, a ∈ H.arcs) {s : ι} (h : G.Reach root s) :
    H.Reach root s := by
  induction h with
  | root => exact .root
  | arc ha _ ih => exact .arc (harcs _ ha) ih

theorem reach_congr (harcs : ∀ a, a ∈ G.arcs ↔ a ∈ H.arcs) {s : ι} :
    G.Reach root s ↔ H.Reach root s :=
  ⟨Reach.of_arcs fun a => (harcs a).1, Reach.of_arcs fun a => (harcs a).2⟩

theorem Potential.of_arcs (harcs : ∀ a ∈ H.arcs, a ∈ G.arcs) (hφ : G.Potential root w φ) :
    H.Potential root w φ := fun a ha hs => hφ a (harcs a ha) (hs.of_arcs harcs)

/-- The effect of a run to a state is what a potential that starts at zero says. -/
theorem Potential.eq_of_realised (hφ : G.Potential root w φ) (h0 : φ root = 0)
    (hψ : G.Realised root w ψ) {s : ι} (hs : G.Reach root s) : ψ s = φ s := by
  obtain ⟨as, hrun, heffect⟩ := hψ s hs
  have hpotential := hφ.run hrun .root
  omega

theorem Potential.congr (hφ : G.Potential root w φ) (h : ∀ s, G.Reach root s → ψ s = φ s) :
    G.Potential root w ψ := by
  intro a ha hs
  rw [h _ hs, h _ (.arc ha hs)]
  exact hφ a ha hs

/-- If something realised over a system with the same arcs is a potential, then so is whatever is
realised over this one. -/
theorem Potential.transfer (harcs : ∀ a, a ∈ G.arcs ↔ a ∈ H.arcs) (hφ : G.Potential root w φ)
    (h0 : φ root = 0) (hψ : H.Realised root w ψ) : H.Potential root w ψ := by
  have hH : H.Potential root w φ := hφ.of_arcs fun a => (harcs a).2
  exact hH.congr fun _ hs => hH.eq_of_realised h0 hψ hs

end Lts

namespace Session

variable {u₁ u₂ : UtilityId} {S₁ S₂ : System} {s₁ s₂ : Session} {r₁ r₂ : RegionId}
  {p₁ p₂ : PlacedRegion} {init₁ init₂ : Value} {w₁ w₂ b₁ b₂ : Bool} {m₁ m₂ n₁ n₂ : Int}

/-! ## Two regions over the same arcs -/

/-- Both systems start at the same state and have the same arcs, and both regions give the same net
weight to every event. -/
structure Comparable (S₁ S₂ : System) (init₁ init₂ : Value) (p₁ p₂ : PlacedRegion) : Prop where
  start : init₁.key = init₂.key
  arcs : ∀ a, a ∈ S₁.lts.arcs ↔ a ∈ S₂.lts.arcs
  net : p₁.net = p₂.net

theorem Comparable.symm (h : Comparable S₁ S₂ init₁ init₂ p₁ p₂) :
    Comparable S₂ S₁ init₂ init₁ p₂ p₁ :=
  ⟨h.start.symm, fun a => (h.arcs a).symm, h.net.symm⟩

/-- The tree paths of one system give a potential if those of the other one do. -/
theorem Comparable.potential (h : Comparable S₁ S₂ init₁ init₂ p₁ p₂)
    (h₁ : Answers w₁ s₁ S₁ init₁ p₁ b₁ m₁ n₁) (h₂ : Answers w₂ s₂ S₂ init₂ p₂ b₂ m₂ n₂)
    (hpotential : S₁.lts.Potential init₁.key p₁.net (p₁.potential S₁ init₁)) :
    S₂.lts.Potential init₂.key p₂.net (p₂.potential S₂ init₂) := by
  have hrealised := h₂.realised
  rw [← h.start, ← h.net] at hrealised ⊢
  exact hpotential.transfer h.arcs h₁.potential_init hrealised

theorem Comparable.consistent_eq (h : Comparable S₁ S₂ init₁ init₂ p₁ p₂)
    (h₁ : Answers w₁ s₁ S₁ init₁ p₁ b₁ m₁ n₁) (h₂ : Answers w₂ s₂ S₂ init₂ p₂ b₂ m₂ n₂) :
    b₁ = b₂ := by
  rw [Bool.eq_iff_iff, h₁.consistent_iff, h₂.consistent_iff]
  exact ⟨h.potential h₁ h₂, h.symm.potential h₂ h₁⟩

theorem Comparable.potential_eq (h : Comparable S₁ S₂ init₁ init₂ p₁ p₂)
    (h₁ : Answers w₁ s₁ S₁ init₁ p₁ true m₁ n₁) (h₂ : Answers w₂ s₂ S₂ init₂ p₂ b₂ m₂ n₂) {k : Key}
    (hk : S₁.lts.Reach init₁.key k) : p₂.potential S₂ init₂ k = p₁.potential S₁ init₁ k := by
  have hpotential := (h₁.consistent_iff.1 rfl).of_arcs fun a => (h.arcs a).2
  have hrealised := h₂.realised
  have hreach := (Lts.reach_congr h.arcs).1 hk
  rw [← h.start, ← h.net] at hrealised
  exact hpotential.eq_of_realised h₁.potential_init hrealised hreach

theorem Comparable.normal_eq (h : Comparable S₁ S₂ init₁ init₂ p₁ p₂)
    (h₁ : Answers w₁ s₁ S₁ init₁ p₁ true m₁ n₁) (h₂ : Answers w₂ s₂ S₂ init₂ p₂ b₂ m₂ n₂) :
    n₁ = n₂ := by
  refine h₁.normal_eq h₂ (fun k => ?_) fun _ hk => (h.potential_eq h₁ h₂ hk).symm
  rw [← h.start]
  exact Lts.reach_congr h.arcs

/-- Two systems with the same initial state and the same arcs, in whatever order states and arcs were
added, and two regions with the same net weights over the same events, neither with a given marking:
both are consistent or none is, and if they are, they have the same initial marking and the same
marking of every state that can be reached. -/
theorem same_arcs_answer_alike (w₁ w₂ : Bool) (hs₁ : s₁.Steady u₁ S₁) (hs₂ : s₂.Steady u₂ S₂)
    (hi₁ : S₁.initial? = .ok init₁) (hi₂ : S₂.initial? = .ok init₂)
    (hstart : init₁.key = init₂.key) (harcs : ∀ a, a ∈ S₁.lts.arcs ↔ a ∈ S₂.lts.arcs)
    (hp₁ : s₁.region? r₁ = some p₁) (hp₂ : s₂.region? r₂ = some p₂)
    (hu₁ : p₁.holding.region.utility = u₁) (hu₂ : p₂.holding.region.utility = u₂)
    (hevents : p₁.holding.utility.events = p₂.holding.utility.events)
    (hnet : p₁.holding.region.weights.net = p₂.holding.region.weights.net)
    (hg₁ : p₁.holding.region.given = none) (hg₂ : p₂.holding.region.given = none) :
    ∃ b, (tellRegion w₁ p₁ .isConsistent s₁).answer = .ok (.truth b) ∧
      (tellRegion w₂ p₂ .isConsistent s₂).answer = .ok (.truth b) ∧
      (b = true → ∃ m, (tellRegion w₁ p₁ .initialMarking s₁).answer = .ok (.number m) ∧
        (tellRegion w₂ p₂ .initialMarking s₂).answer = .ok (.number m) ∧
        ∀ v : Value, S₁.lts.Reach init₁.key v.key →
          ∃ k, (tellRegion w₁ p₁ (.markingOf v) s₁).answer = .ok (.number k) ∧
            (tellRegion w₂ p₂ (.markingOf v) s₂).answer = .ok (.number k)) := by
  obtain ⟨U₁, hU₁⟩ := hs₁.settled
  obtain ⟨U₂, hU₂⟩ := hs₂.settled
  obtain ⟨b, m₁, n₁, h₁⟩ := hU₁.answers w₁ hs₁.valid hi₁ hp₁ hu₁
  obtain ⟨b₂, m₂, n₂, h₂⟩ := hU₂.answers w₂ hs₂.valid hi₂ hp₂ hu₂
  have hsame : Comparable S₁ S₂ init₁ init₂ p₁ p₂ :=
    ⟨hstart, harcs, by rw [PlacedRegion.net, PlacedRegion.net, hevents, hnet]⟩
  obtain rfl := hsame.consistent_eq h₁ h₂
  refine ⟨b, h₁.consistent, h₂.consistent, fun hb => ?_⟩
  subst hb
  have hmarking : m₂ = m₁ := by
    rw [h₁.given, h₂.given, hg₁, hg₂, Option.getD_none, Option.getD_none, hsame.normal_eq h₁ h₂]
  subst hmarking
  refine ⟨m₂, h₁.initial, h₂.initial, fun v hv => ⟨_, h₁.marking v hv, ?_⟩⟩
  have hv₂ : S₂.lts.Reach init₂.key v.key := hstart ▸ (Lts.reach_congr harcs).1 hv
  rw [h₂.marking v hv₂, hsame.potential_eq h₁ h₂ hv]

/-! ## Two orders of one system -/

/-- Two ways to the same state, with the events `a` and `b` in either order. -/
def diamondArcs : List (Value × Value × Value) :=
  [(.text "s0", .text "a", .text "s1"), (.text "s0", .text "b", .text "s2"),
    (.text "s1", .text "b", .text "s3"), (.text "s2", .text "a", .text "s3")]

/-- A session with a system of these arcs, its utility, and a region in which `a` puts a token and `b`
takes one. -/
def diamondSession (triples : List (Value × Value × Value)) : Session :=
  (run false
    [.systemOfArcs triples (.text "s0") "" (some "lts"),
      .newUtility "lts" (some ["a", "b"]) (some "utility"),
      .newRegion "utility" [.integer 0, .integer 1] [.integer 1, .integer 0] .null
        (some "region")] {}).2

def diamondSystem (states : List Value) (arcs : List (Arc Value)) : System where
  written := { states, arcs, initial := some (.text "s0") }
  alphabet := distinct (arcs.map Arc.label)
  alphabet_eq := rfl

/-- The arcs as listed: the search reaches `s3` through `s2`. -/
def diamondForwards : System :=
  diamondSystem [.text "s0", .text "s1", .text "s2", .text "s3"]
    [⟨.text "s0", .text "s1", "a"⟩, ⟨.text "s0", .text "s2", "b"⟩, ⟨.text "s1", .text "s3", "b"⟩,
      ⟨.text "s2", .text "s3", "a"⟩]

/-- The arcs in reverse: the search reaches `s3` through `s1`. -/
def diamondBackwards : System :=
  diamondSystem [.text "s0", .text "s2", .text "s3", .text "s1"]
    [⟨.text "s2", .text "s3", "a"⟩, ⟨.text "s1", .text "s3", "b"⟩, ⟨.text "s0", .text "s2", "b"⟩,
      ⟨.text "s0", .text "s1", "a"⟩]

def diamondRegion (S : System) : PlacedRegion :=
  ⟨0, ⟨⟨0, ⟨[0, 1], [1, 0]⟩, none, none, []⟩, ⟨0, ["a", "b"], none, none, none⟩⟩, S⟩

theorem steady_diamondForwards : (diamondSession diamondArcs).Steady 0 diamondForwards :=
  .step false _ (.made false "lts" (some ["a", "b"]) (some "utility") (.step false _ .empty) rfl rfl)
    rfl

theorem steady_diamondBackwards :
    (diamondSession diamondArcs.reverse).Steady 0 diamondBackwards :=
  .step false _ (.made false "lts" (some ["a", "b"]) (some "utility") (.step false _ .empty) rfl rfl)
    rfl

theorem region?_diamondForwards :
    (diamondSession diamondArcs).region? 0 = some (diamondRegion diamondForwards) := rfl

theorem region?_diamondBackwards :
    (diamondSession diamondArcs.reverse).region? 0 = some (diamondRegion diamondBackwards) := rfl

theorem arcs_diamond (a : Arc Key) :
    a ∈ diamondForwards.lts.arcs ↔ a ∈ diamondBackwards.lts.arcs := by
  have hreverse : diamondBackwards.lts.arcs = diamondForwards.lts.arcs.reverse := rfl
  rw [hreverse, List.mem_reverse]

theorem same_arcs_answer_alike_diamond :
    (diamondSession diamondArcs).Steady 0 diamondForwards ∧
      (diamondSession diamondArcs.reverse).Steady 0 diamondBackwards ∧
      (∀ a, a ∈ diamondForwards.lts.arcs ↔ a ∈ diamondBackwards.lts.arcs) ∧
      (diamondForwards.lts.spanningTree (Value.text "s0").key).states ≠
        (diamondBackwards.lts.spanningTree (Value.text "s0").key).states ∧
      ∃ b, (tellRegion false (diamondRegion diamondForwards) .isConsistent
          (diamondSession diamondArcs)).answer = .ok (.truth b) ∧
        (tellRegion false (diamondRegion diamondBackwards) .isConsistent
          (diamondSession diamondArcs.reverse)).answer = .ok (.truth b) ∧
        (b = true → ∃ m, (tellRegion false (diamondRegion diamondForwards) .initialMarking
            (diamondSession diamondArcs)).answer = .ok (.number m) ∧
          (tellRegion false (diamondRegion diamondBackwards) .initialMarking
            (diamondSession diamondArcs.reverse)).answer = .ok (.number m) ∧
          ∀ v : Value, diamondForwards.lts.Reach (Value.text "s0").key v.key →
            ∃ k, (tellRegion false (diamondRegion diamondForwards) (.markingOf v)
                (diamondSession diamondArcs)).answer = .ok (.number k) ∧
              (tellRegion false (diamondRegion diamondBackwards) (.markingOf v)
                (diamondSession diamondArcs.reverse)).answer = .ok (.number k)) :=
  ⟨steady_diamondForwards, steady_diamondBackwards, arcs_diamond, by decide +kernel,
    same_arcs_answer_alike false false steady_diamondForwards steady_diamondBackwards rfl rfl rfl
      arcs_diamond region?_diamondForwards region?_diamondBackwards rfl rfl rfl rfl rfl rfl⟩

end Session

end RegionCalculus
