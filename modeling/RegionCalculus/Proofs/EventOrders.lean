import RegionCalculus.Proofs.Arithmetic
import RegionCalculus.Proofs.ConsistentRegions

/-!
# The order of the events

A utility lays out weights and vectors by its order of the events. Two utilities of one system can
list the events in different orders, and each can add labels that no arc has. What their regions
answer depends on the weights of the labels of arcs alone, wherever these stand.

* `runEffect_congr`, `Lts.potential_iff_of_weights`: runs and potentials read no other weights.
* `Lts.treePotential_congr`: neither do the tree paths.
* `Session.PlacedRegion.net_eq_sub`: the net weight of a label is what is put less what is taken.
* `Session.event_orders_answer_alike`: regions of two utilities with the same weights answer alike.
-/

namespace RegionCalculus
set_option autoImplicit false

/-! ## Weights of the labels of arcs -/

theorem runEffect_congr {ι : Type} {w w' : String → Int} {as : List (Arc ι)}
    (h : ∀ a ∈ as, w a.label = w' a.label) : runEffect w as = runEffect w' as :=
  congrArg List.sum (List.map_congr_left h)

namespace Lts

variable {ι : Type} {G : Lts ι} {root : ι} {w w' : String → Int} {φ ψ : ι → Int}

theorem Potential.of_weights (hφ : G.Potential root w φ)
    (hw : ∀ a ∈ G.arcs, w a.label = w' a.label) (h : ∀ s, G.Reach root s → φ s = ψ s) :
    G.Potential root w' ψ := by
  intro a ha hs
  rw [← h _ hs, ← h _ (.arc ha hs), ← hw a ha]
  exact hφ a ha hs

theorem potential_iff_of_weights (hw : ∀ a ∈ G.arcs, w a.label = w' a.label)
    (h : ∀ s, G.Reach root s → φ s = ψ s) :
    G.Potential root w φ ↔ G.Potential root w' ψ :=
  ⟨fun hφ => hφ.of_weights hw h,
    fun hψ => hψ.of_weights (fun a ha => (hw a ha).symm) fun s hs => (h s hs).symm⟩

/-- Both are the effect of the tree path, whose arcs have the same weights in either order. -/
theorem treePotential_congr [DecidableEq ι] {events events' : List String} {net net' : List Int}
    (hG : G.Valid) (he : EventOrder G events) (he' : EventOrder G events')
    (hw : ∀ a ∈ G.arcs, weightOf events net a.label = weightOf events' net' a.label) {s : ι}
    (hs : G.Reach root s) :
    G.treePotential root events net s = G.treePotential root events' net' s := by
  have hgrown := grown_spanningTree hG root
  have hmem := (mem_states_spanningTree hG).2 hs
  have harcs : ∀ a ∈ (G.spanningTree root).arcs, a ∈ G.arcs := fun a =>
    mem_arcs_of_mem_spanningTree
  rw [treePotential, treePotential,
    hgrown.potential_eq_runEffect he.nodup (fun a ha => he.label_mem a (harcs a ha)) net hmem,
    hgrown.potential_eq_runEffect he'.nodup (fun a ha => he'.label_mem a (harcs a ha)) net' hmem]
  exact runEffect_congr fun a ha => hw a (harcs a (hgrown.rootPath_subset s hmem a ha))

end Lts

namespace Session

variable {u u₁ u₂ : UtilityId} {S : System} {U : RegionUtility} {s s₁ s₂ : Session}
  {r r₁ r₂ : RegionId} {p p₁ p₂ : PlacedRegion} {init : Value}

/-! ## Regions of two utilities -/

theorem PlacedRegion.net_eq_sub
    (h : p.holding.region.weights.Sized p.holding.utility.size) (e : String) :
    p.net e = p.puts e - p.takes e :=
  h.getD_net _

/-- Regions that answer the same backward and forward weights have the same net weights. -/
theorem Settled.net_eq {w₁ w₂ : Bool} {U₁ U₂ : RegionUtility} (h₁ : s₁.Settled u₁ S U₁)
    (h₂ : s₂.Settled u₂ S U₂) (hp₁ : s₁.region? r₁ = some p₁) (hp₂ : s₂.region? r₂ = some p₂)
    (hu₁ : p₁.holding.region.utility = u₁) (hu₂ : p₂.holding.region.utility = u₂)
    (hbackward : ∀ e ∈ S.alphabet, (tellRegion w₁ p₁ (.backwardOf (.text e)) s₁).answer =
      (tellRegion w₂ p₂ (.backwardOf (.text e)) s₂).answer)
    (hforward : ∀ e ∈ S.alphabet, (tellRegion w₁ p₁ (.forwardOf (.text e)) s₁).answer =
      (tellRegion w₂ p₂ (.forwardOf (.text e)) s₂).answer) :
    ∀ a ∈ S.lts.arcs, p₁.net a.label = p₂.net a.label := by
  obtain ⟨_, hkept₁, hR₁⟩ := h₁.region hp₁ hu₁
  obtain ⟨_, hkept₂, hR₂⟩ := h₂.region hp₂ hu₂
  intro a ha
  have hlabel : a.label ∈ S.alphabet := System.mem_alphabet.2 ⟨a, ha, rfl⟩
  obtain ⟨htakes₁, hputs₁, _⟩ := tellRegion_weights (s := s₁) w₁ (hkept₁.order.label_mem a ha)
  obtain ⟨htakes₂, hputs₂, _⟩ := tellRegion_weights (s := s₂) w₂ (hkept₂.order.label_mem a ha)
  have htakes : p₁.takes a.label = p₂.takes a.label := Answer.number.inj (Except.ok.inj
    (htakes₁.symm.trans ((hbackward _ hlabel).trans htakes₂)))
  have hputs : p₁.puts a.label = p₂.puts a.label := Answer.number.inj (Except.ok.inj
    (hputs₁.symm.trans ((hforward _ hlabel).trans hputs₂)))
  rw [PlacedRegion.net_eq_sub ⟨hR₁.backward_length, hR₁.forward_length⟩,
    PlacedRegion.net_eq_sub ⟨hR₂.backward_length, hR₂.forward_length⟩, htakes, hputs]

/-- Two utilities of one system, whatever orders of the events they were given, and two regions
without a given marking that answer the same backward and forward weight for each label of the
alphabet: both are consistent or none is, and they have the same initial marking and the same marking
of every state that can be reached. -/
theorem event_orders_answer_alike (w₁ w₂ : Bool) (hs₁ : s₁.Steady u₁ S) (hs₂ : s₂.Steady u₂ S)
    (hi : S.initial? = .ok init) (hp₁ : s₁.region? r₁ = some p₁) (hp₂ : s₂.region? r₂ = some p₂)
    (hu₁ : p₁.holding.region.utility = u₁) (hu₂ : p₂.holding.region.utility = u₂)
    (hg₁ : p₁.holding.region.given = none) (hg₂ : p₂.holding.region.given = none)
    (hbackward : ∀ e ∈ S.alphabet, (tellRegion w₁ p₁ (.backwardOf (.text e)) s₁).answer =
      (tellRegion w₂ p₂ (.backwardOf (.text e)) s₂).answer)
    (hforward : ∀ e ∈ S.alphabet, (tellRegion w₁ p₁ (.forwardOf (.text e)) s₁).answer =
      (tellRegion w₂ p₂ (.forwardOf (.text e)) s₂).answer) :
    ∃ b m, (tellRegion w₁ p₁ .isConsistent s₁).answer = .ok (.truth b) ∧
      (tellRegion w₂ p₂ .isConsistent s₂).answer = .ok (.truth b) ∧
      (tellRegion w₁ p₁ .initialMarking s₁).answer = .ok (.number m) ∧
      (tellRegion w₂ p₂ .initialMarking s₂).answer = .ok (.number m) ∧
      ∀ v : Value, S.lts.Reach init.key v.key →
        ∃ k, (tellRegion w₁ p₁ (.markingOf v) s₁).answer = .ok (.number k) ∧
          (tellRegion w₂ p₂ (.markingOf v) s₂).answer = .ok (.number k) := by
  obtain ⟨U₁, hU₁⟩ := hs₁.settled
  obtain ⟨U₂, hU₂⟩ := hs₂.settled
  obtain ⟨b₁, m₁, n₁, h₁⟩ := hU₁.answers w₁ hs₁.valid hi hp₁ hu₁
  obtain ⟨b₂, m₂, n₂, h₂⟩ := hU₂.answers w₂ hs₂.valid hi hp₂ hu₂
  have hnet := hU₁.net_eq hU₂ hp₁ hp₂ hu₁ hu₂ hbackward hforward
  have hpotential : ∀ k, S.lts.Reach init.key k →
      p₁.potential S init k = p₂.potential S init k := fun _ hk =>
    Lts.treePotential_congr hs₁.valid (hU₁.region hp₁ hu₁).2.1.order
      (hU₂.region hp₂ hu₂).2.1.order hnet hk
  have hconsistent : b₂ = b₁ := by
    rw [Bool.eq_iff_iff, h₂.consistent_iff, h₁.consistent_iff]
    exact (Lts.potential_iff_of_weights hnet hpotential).symm
  have hmarking : m₂ = m₁ := by
    rw [h₁.given, h₂.given, hg₁, hg₂, Option.getD_none, Option.getD_none,
      h₁.normal_eq h₂ (fun _ => Iff.rfl) hpotential]
  subst hconsistent hmarking
  refine ⟨b₂, m₂, h₁.consistent, h₂.consistent, h₁.initial, h₂.initial, fun v hv => ?_⟩
  exact ⟨_, h₁.marking v hv, by rw [hpotential _ hv]; exact h₂.marking v hv⟩

/-! ## Another order for the ring -/

/-- The session of the ring has made a second utility, with its events in another order and one that
no arc has, and a region of it with the weights of the first one. -/
def reorderedSession : Session := (step false
  (.newRegion "reordered" [.integer 0, .integer 7, .integer 2, .integer 0]
    [.integer 0, .integer 5, .integer 0, .integer 1] .null (some "alike"))
  (step false (.newUtility "lts" (some ["c", "z", "b", "a"]) (some "reordered"))
    ringSession).2).2

def reorderedRegion : PlacedRegion :=
  ⟨1, ⟨⟨1, ⟨[0, 7, 2, 0], [0, 5, 0, 1]⟩, none, none, []⟩,
    ⟨0, ["c", "z", "b", "a"], none, none, none⟩⟩, ringSystem⟩

theorem steady_reordered_first : reorderedSession.Steady 0 ringSystem :=
  .step false _ (.step false _ steady_ringSession rfl) rfl

theorem steady_reordered_second : reorderedSession.Steady 1 ringSystem :=
  .step false _ (.made false "lts" (some ["c", "z", "b", "a"]) (some "reordered")
    steady_ringSession.reached rfl rfl) rfl

theorem region?_reordered_first : reorderedSession.region? 0 = some ringRegion := rfl

theorem region?_reordered_second : reorderedSession.region? 1 = some reorderedRegion := rfl

theorem event_orders_answer_alike_ring :
    reorderedSession.Steady 0 ringSystem ∧ reorderedSession.Steady 1 ringSystem ∧
      reorderedSession.region? 0 = some ringRegion ∧
      reorderedSession.region? 1 = some reorderedRegion ∧
      ∃ b m,
        (tellRegion false ringRegion .isConsistent reorderedSession).answer = .ok (.truth b) ∧
        (tellRegion false reorderedRegion .isConsistent reorderedSession).answer =
          .ok (.truth b) ∧
        (tellRegion false ringRegion .initialMarking reorderedSession).answer =
          .ok (.number m) ∧
        (tellRegion false reorderedRegion .initialMarking reorderedSession).answer =
          .ok (.number m) ∧
        ∀ v : Value, ringSystem.lts.Reach (Value.text "s0").key v.key →
          ∃ k, (tellRegion false ringRegion (.markingOf v) reorderedSession).answer =
              .ok (.number k) ∧
            (tellRegion false reorderedRegion (.markingOf v) reorderedSession).answer =
              .ok (.number k) := by
  have halphabet : ringSystem.alphabet = ["a", "b", "c"] := rfl
  refine ⟨steady_reordered_first, steady_reordered_second, region?_reordered_first,
    region?_reordered_second,
    event_orders_answer_alike false false steady_reordered_first steady_reordered_second rfl
      region?_reordered_first region?_reordered_second rfl rfl rfl rfl ?_ ?_⟩
  all_goals
    simp only [halphabet, List.forall_mem_cons]
    exact ⟨rfl, rfl, rfl, fun _ he => absurd he List.not_mem_nil⟩

end Session

end RegionCalculus
