import RegionCalculus.Proofs.WellFormed

/-!
# The normal form of a builder

Loops, additions of regions and purifications may be mixed in any order. Once the builder is purified,
its weights depend on the net effect of the additions alone.

* `BuilderCall`: a step on a builder, asked for with plain numbers.
* `BuilderCall.apply s U w c`: the weights after the step.
* `builderCommands on calls`: the commands that ask for them; `additions calls`: the regions that are
  added, with their factors.
* `Session.run_calls`: steps change the weights of the builder and nothing else.
* `Session.purified_calls`: the weights after steps of which the last purifies the builder.
-/

namespace RegionCalculus
set_option autoImplicit false

open Attempt

/-! ## Calls -/

inductive BuilderCall where
  | loop (event : Value) (weight : Int)
  | add (region : SlotName) (factor : Int)
  | purify

namespace BuilderCall

def command (on : SlotName) : BuilderCall → Command
  | loop event weight => .toBuilder on (.addLoop event (.integer weight) none)
  | add region factor => .toBuilder on (.addScaled (.slot region) (.integer factor) none)
  | purify => .toBuilder on (.purify none)

/-- What is asked to be added. -/
def addition? : BuilderCall → Option (SlotName × Int)
  | add region factor => some (region, factor)
  | _ => none

/-- The weights `w` after a call on a builder of the utility `U`. A loop around an event that `U` does
not know is refused. -/
def apply (s : Session) (U : RegionUtility) (w : Weights) : BuilderCall → Weights
  | loop event weight =>
    match U.resolve? event with
    | .ok i => w.addLoop i weight
    | .error _ => w
  | add region factor =>
    match s.regionIn? region with
    | some q => w.accumulate U.size q.holding.region.weights factor
    | none => w
  | purify => w.purified

end BuilderCall

def builderCommands (on : SlotName) (calls : List BuilderCall) : List Command :=
  calls.map (BuilderCall.command on)

def additions (calls : List BuilderCall) : List (SlotName × Int) :=
  calls.filterMap BuilderCall.addition?

namespace Session

variable {s : Session} {on : SlotName} {p : PlacedBuilder} {w : Weights} {c : BuilderCall}
  {calls : List BuilderCall}

/-- The net weight of an event in the region that stands in a slot. -/
def netIn (s : Session) (name : SlotName) (i : Nat) : Int :=
  match s.regionIn? name with
  | some q => q.holding.region.weights.net.getD i 0
  | none => 0

/-- A region of the utility `u` stands in the slot. -/
def Holds (s : Session) (u : UtilityId) (name : SlotName) : Prop :=
  ∃ q, s.regionIn? name = some q ∧ q.holding.region.utility = u

/-! ## Calls change weights only -/

/-- The session with other weights for a builder. -/
def withWeights (s : Session) (p : PlacedBuilder) (w : Weights) : Session :=
  s.setBuilder p.id ⟨p.builder.utility, w⟩

theorem withWeights_self (h : s.builderIn? on = some p) : s.withWeights p p.builder.weights = s := by
  obtain ⟨_, hB, _⟩ := builder?_eq_some_iff.1 (builder?_of_builderIn? h)
  obtain ⟨_, hget⟩ := List.getElem?_eq_some_iff.1 hB
  change s.setBuilder p.id p.builder = s
  rw [setBuilder, ← hget, List.set_getElem_self]

theorem withWeights_withWeights (s : Session) (p : PlacedBuilder) (w w' : Weights) :
    (s.withWeights p w).setBuilder p.id ⟨p.builder.utility, w'⟩ = s.withWeights p w' := by
  simp only [withWeights, setBuilder, List.set_set]

/-- An addition of a region of the utility puts the builder with the sum in its place. -/
theorem step_add {region : SlotName} {q : PlacedRegion} (watched : Bool)
    (hon : s.builderIn? on = some p) (hq : s.regionIn? region = some q)
    (hsame : q.holding.region.utility = p.builder.utility) (factor : Int) :
    (step watched ((BuilderCall.add region factor).command on) s).1.answer =
        .ok (.weights
          (p.builder.weights.accumulate p.utility.size q.holding.region.weights factor)) ∧
      (step watched ((BuilderCall.add region factor).command on) s).2 =
        s.setBuilder p.id ⟨p.builder.utility,
          p.builder.weights.accumulate p.utility.size q.holding.region.weights factor⟩ := by
  obtain ⟨hanswer, hstate⟩ :=
    step_toBuilder hon watched (.addScaled (.slot region) (.integer factor) none)
  have hadd : tellBuilder watched p (.addScaled (.slot region) (.integer factor) none) s =
      rebuild p.id ⟨p.builder.utility,
        p.builder.weights.accumulate p.utility.size q.holding.region.weights factor⟩ none s := by
    rw [tellBuilder, bind_of_ok (operand_slot hq)]
    dsimp only
    rw [Builder.addScaled?, if_neg (not_not.2 hsame)]
    rfl
  rw [BuilderCall.command, hanswer, hstate, hadd, rebuild_apply]
  exact ⟨rfl, rfl⟩

theorem step_call (watched : Bool) (h : s.builderIn? on = some p)
    (hc : ∀ t, c.addition? = some t → s.Holds p.builder.utility t.1) :
    (step watched (c.command on) (s.withWeights p w)).2 = s.withWeights p (c.apply s p.utility w) := by
  have hon : (s.withWeights p w).builderIn? on =
      some { p with builder := ⟨p.builder.utility, w⟩ } := builderIn?_setBuilder h rfl
  cases c with
  | loop event weight =>
    rw [BuilderCall.command, (step_toBuilder hon watched _).2, tellBuilder, Builder.addLoop?,
      BuilderCall.apply]
    cases hi : p.utility.resolve? event with
    | error f => rfl
    | ok i => exact withWeights_withWeights s p w (w.addLoop i weight)
  | add region factor =>
    obtain ⟨q, hq, hsame⟩ := hc _ rfl
    have hq' : (s.withWeights p w).regionIn? region = some q := hq
    rw [(step_add watched hon hq' hsame factor).2, BuilderCall.apply, hq]
    exact withWeights_withWeights s p w
      (w.accumulate p.utility.size q.holding.region.weights factor)
  | purify =>
    rw [BuilderCall.command, (step_toBuilder hon watched _).2]
    exact withWeights_withWeights s p w w.purified

theorem run_calls (watched : Bool) (h : s.builderIn? on = some p) (calls : List BuilderCall)
    (hcalls : ∀ t ∈ additions calls, s.Holds p.builder.utility t.1) (w : Weights) :
    (run watched (builderCommands on calls) (s.withWeights p w)).2 =
      s.withWeights p (calls.foldl (BuilderCall.apply s p.utility) w) := by
  induction calls generalizing w with
  | nil => rfl
  | cons c calls ih =>
    have hc : ∀ t, c.addition? = some t → s.Holds p.builder.utility t.1 := fun t ht =>
      hcalls t (List.mem_filterMap.2 ⟨c, List.mem_cons_self, ht⟩)
    have hrest : ∀ t ∈ additions calls, s.Holds p.builder.utility t.1 := fun t ht => by
      obtain ⟨d, hd, hdt⟩ := List.mem_filterMap.1 ht
      exact hcalls t (List.mem_filterMap.2 ⟨d, List.mem_cons_of_mem _ hd, hdt⟩)
    rw [builderCommands, List.map_cons, run, step_call watched h hc, List.foldl_cons]
    exact ih hrest _

/-! ## Net effects -/

/-- A call keeps the length of the weights, and only an addition has a net effect. -/
theorem apply_net {U : RegionUtility} (hw : w.Sized U.size) (c : BuilderCall)
    (hc : ∀ t q, c.addition? = some t → s.regionIn? t.1 = some q →
      q.holding.region.weights.Sized U.size) :
    (c.apply s U w).Sized U.size ∧ ∀ i, (c.apply s U w).net.getD i 0 =
      w.net.getD i 0 + (c.addition?.toList.map fun t => t.2 * s.netIn t.1 i).sum := by
  cases c with
  | loop event weight =>
    rw [BuilderCall.apply]
    cases U.resolve? event with
    | error f => exact ⟨hw, fun i => by simp [BuilderCall.addition?]⟩
    | ok j =>
      refine ⟨hw.addLoop j weight, fun i => ?_⟩
      simp [Weights.net_addLoop hw, BuilderCall.addition?]
  | add region factor =>
    simp only [BuilderCall.apply, BuilderCall.addition?, Option.toList_some, List.map_singleton,
      List.sum_singleton, netIn]
    cases hq : s.regionIn? region with
    | none => exact ⟨hw, fun i => by simp⟩
    | some q =>
      have hsized := hc _ q rfl hq
      refine ⟨hw.accumulate hsized factor, ?_⟩
      simp only [hw.accumulate_eq hsized]
      exact Weights.getD_net_addScaled hw hsized factor
  | purify =>
    refine ⟨hw.purified, fun i => ?_⟩
    simp [BuilderCall.apply, BuilderCall.addition?, hw.purified_eq]

theorem foldl_apply_net {U : RegionUtility} (hw : w.Sized U.size) (calls : List BuilderCall)
    (hcalls : ∀ t ∈ additions calls, ∀ q, s.regionIn? t.1 = some q →
      q.holding.region.weights.Sized U.size) :
    (calls.foldl (BuilderCall.apply s U) w).Sized U.size ∧
      ∀ i, (calls.foldl (BuilderCall.apply s U) w).net.getD i 0 =
        w.net.getD i 0 + ((additions calls).map fun t => t.2 * s.netIn t.1 i).sum := by
  induction calls generalizing w with
  | nil => exact ⟨hw, fun i => by simp [additions]⟩
  | cons c calls ih =>
    have hsplit : additions (c :: calls) = c.addition?.toList ++ additions calls := by
      cases hc : c.addition? <;> simp [additions, hc]
    rw [hsplit] at hcalls ⊢
    obtain ⟨hsized, hnet⟩ := apply_net hw c (fun t q ht hq =>
      hcalls t (List.mem_append_left _ (by simp [ht])) q hq)
    obtain ⟨hsized', hnet'⟩ := ih hsized fun t ht q hq =>
      hcalls t (List.mem_append_right _ ht) q hq
    refine ⟨hsized', fun i => ?_⟩
    rw [List.foldl_cons, hnet', hnet, List.map_append, List.sum_append]
    ring

/-- The net effect of the weights of a builder and of the additions, event by event. -/
def netAfter (s : Session) (p : PlacedBuilder) (calls : List BuilderCall) (i : Nat) : Int :=
  p.builder.weights.forward.getD i 0 - p.builder.weights.backward.getD i 0 +
    ((additions calls).map fun t => t.2 * s.netIn t.1 i).sum

/-- The weights with that net effect that never both take and put. -/
def normalWeights (s : Session) (p : PlacedBuilder) (calls : List BuilderCall) : Weights where
  backward := (List.range p.utility.size).map fun i => max (-s.netAfter p calls i) 0
  forward := (List.range p.utility.size).map fun i => max (s.netAfter p calls i) 0

theorem ofNet_netAfter (s : Session) (p : PlacedBuilder) (calls : List BuilderCall) :
    Weights.ofNet ((List.range p.utility.size).map (s.netAfter p calls)) =
      s.normalWeights p calls := by
  simp only [Weights.ofNet_eq, List.map_map, normalWeights]
  rfl

theorem netAfter_perm {calls' : List BuilderCall} (h : (additions calls').Perm (additions calls)) :
    s.netAfter p calls' = s.netAfter p calls := by
  funext i
  rw [netAfter, netAfter, (h.map _).sum_eq]

theorem run_purified (watched : Bool) (hs : s.Reached) (hon : s.builderIn? on = some p)
    (hcalls : ∀ t ∈ additions calls, s.Holds p.builder.utility t.1) :
    (run watched (builderCommands on (calls ++ [.purify])) s).2 =
      s.withWeights p (s.normalWeights p calls) := by
  have hp := builder?_of_builderIn? hon
  have howner := owner_of_builderIn? hon
  have hadded : additions (calls ++ [BuilderCall.purify]) = additions calls := by
    simp [additions, BuilderCall.addition?]
  have hrun := run_calls watched hon (calls ++ [BuilderCall.purify]) (hadded ▸ hcalls) p.builder.weights
  rw [withWeights_self hon, List.foldl_append] at hrun
  obtain ⟨hsized, hnet⟩ := foldl_apply_net (hs.builder_sized hp) calls fun t ht q hq => by
    obtain ⟨q', hq', hsame⟩ := hcalls t ht
    obtain rfl := Option.some.inj (hq.symm.trans hq')
    exact (hs.wellMade.wellFormed howner (region?_of_regionIn? hq) hsame).sized
  have hlist := eq_map_range hsized.length_net fun i =>
    (hnet i).trans (congrArg (· + _) ((hs.builder_sized hp).getD_net i))
  -- the last call overwrites both sides in place, as `ofNet` would write the net weights anew
  have hpure := (hsized.purified_eq).trans (congrArg Weights.ofNet hlist)
  rw [hrun, ← ofNet_netAfter]
  exact congrArg (s.withWeights p) hpure

theorem builderOfNet_answer (watched : Bool) {u : PlacedUtility} (hu : s.utility? u.id = some u)
    {name : SlotName} (hname : s.slots.lookup name = some (.utility u.id)) (slot : Keep)
    {net : List Int} (hnet : net.length = u.utility.size) :
    (step watched (.builderOfNet name (net.map .integer) slot) s).1.answer =
      .ok (.weights (Weights.ofNet net)) := by
  have hfound : (s.slots.lookup name).bind s.utilityOf? = some u := by
    rw [hname]
    exact hu
  change (perform watched (.builderOfNet name (net.map .integer) slot) s).answer = _
  rw [perform, utilityAt, lookup_bind hfound, Builder.ofNet?_integers u.id hnet]
  rfl

/-- After any steps on a builder of which the last purifies it, its weights are those of the net effect
of its first weights and of the added regions. They depend on nothing else: not on the order of the
steps, nor on loops and earlier purifications. A builder that is made of this net effect has them too. -/
theorem purified_calls (watched : Bool) (hs : s.Reached) (hon : s.builderIn? on = some p)
    (hcalls : ∀ t ∈ additions calls, s.Holds p.builder.utility t.1) :
    (run watched (builderCommands on (calls ++ [.purify])) s).2 =
        s.withWeights p (s.normalWeights p calls) ∧
      (∀ calls', (additions calls').Perm (additions calls) →
        (run watched (builderCommands on (calls' ++ [.purify])) s).2 =
          (run watched (builderCommands on (calls ++ [.purify])) s).2) ∧
      ∀ name slot, s.slots.lookup name = some (.utility p.builder.utility) →
        (step watched (.builderOfNet name
            (((List.range p.utility.size).map (s.netAfter p calls)).map .integer) slot) s).1.answer =
          .ok (.weights (s.normalWeights p calls)) := by
  have hrun := run_purified watched hs hon hcalls
  refine ⟨hrun, fun calls' hperm => ?_, fun name slot hname => ?_⟩
  · have hcalls' : ∀ t ∈ additions calls', s.Holds p.builder.utility t.1 := fun t ht =>
      hcalls t (hperm.mem_iff.1 ht)
    rw [hrun, run_purified watched hs hon hcalls', normalWeights, normalWeights,
      netAfter_perm hperm]
  · rw [← ofNet_netAfter]
    exact builderOfNet_answer watched (owner_of_builderIn? hon) hname slot (by simp)

/-- A loop around an event, two additions of a region with different signs, and a purification between
them. -/
def craftCalls : List BuilderCall :=
  [.loop (.text "b") 4, .add "other" (-2), .purify, .add "region" 3]

theorem purified_calls_craft :
    craftSession.Reached ∧ craftSession.builderIn? "builder" = some craftBuilder ∧
      (∀ t ∈ additions craftCalls, craftSession.Holds 0 t.1) ∧
      (run false (builderCommands "builder" (craftCalls ++ [.purify])) craftSession).2 =
        craftSession.withWeights craftBuilder ⟨[0, 17, 0], [7, 0, 8]⟩ := by
  have hcalls : ∀ t ∈ additions craftCalls, craftSession.Holds 0 t.1 := by
    intro t ht
    have hmem : ("other", -2) = t ∨ ("region", 3) = t := by
      simpa [additions, craftCalls, BuilderCall.addition?] using ht
    rcases hmem with rfl | rfl
    · exact ⟨craftRegion, rfl, rfl⟩
    · exact ⟨ringRegion, rfl, rfl⟩
  have hweights : craftSession.normalWeights craftBuilder craftCalls = ⟨[0, 17, 0], [7, 0, 8]⟩ := by
    decide +kernel
  refine ⟨reached_craftSession, rfl, hcalls, ?_⟩
  rw [← hweights]
  exact (purified_calls false reached_craftSession rfl hcalls).1

end Session

end RegionCalculus
