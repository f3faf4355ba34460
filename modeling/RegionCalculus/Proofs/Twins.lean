import RegionCalculus.Proofs.Views

/-!
# Sessions that differ in cycle vectors

Two sessions whose utilities keep the same results, up to cycle vectors, answer every command alike if
all utilities are in step with their systems, and they differ in no more afterwards.

* `View.withoutCycles`: the view that forgets the cycle vectors of all utilities.
* `Session.tellUtility_alike` and its like: the commands that ask for something that is kept.
* `Session.perform_alike`: an unwatched and a watched run of one command.
-/

namespace RegionCalculus
set_option autoImplicit false

open Attempt

def View.withoutCycles : View where
  utility := RegionUtility.withoutCycles
  region := id
  system_eq := fun _ => rfl
  events_eq := fun _ => rfl
  owner_eq := fun _ => rfl
  weights_eq := fun _ => rfl

namespace Session

open View

variable {γ : Type} {s s' : Session}

/-! ## Parts of commands -/

theorem treeAt_alike {name : SlotName} {k l : WrittenTree → Attempt Session γ}
    (hs : withoutCycles.session s = withoutCycles.session s')
    (hk : ∀ t, Alike withoutCycles.session (k t) (l t) s s') :
    Alike withoutCycles.session (treeAt name >>= k) (treeAt name >>= l) s s' := by
  obtain ⟨_, htrees, _, _, hutilities, _⟩ := session_eq hs
  have htree : ∀ (s : Session) (u : UtilityId), s.utilities[u]?.bind RegionUtility.tree =
      (s.utilities.map withoutCycles.utility)[u]?.bind RegionUtility.tree := by
    intro s u
    rw [List.getElem?_map]
    cases s.utilities[u]? <;> rfl
  refine lookup_alike id hs (fun r _ => ?_) fun r a a' _ _ _ ha => ?_
  · cases r with
    | tree i => simp [treeOf?, htrees]
    | treeOf u => simp only [treeOf?, htree, hutilities]
    | _ => rfl
  · rw [show a' = a from ha.symm]
    exact hk a

theorem markingOfRegion_alike (r : RegionId)
    (hs : withoutCycles.session s = withoutCycles.session s') :
    Alike withoutCycles.session (markingOfRegion r) (markingOfRegion r) s s' := by
  refine .state_bind ?_
  rcases map_eq_cases (region?_map hs r) with ⟨h, h'⟩ | ⟨p, p', h, h', hp⟩
  · simp only [h, h']
    exact .pure hs _
  · obtain ⟨_, _, _, hsystem⟩ := placedRegion_eq hp
    simp only [h, h', hsystem]
    exact onRegion_alike hs hp
      (Region.initialMarking_alike _ (congrArg (fun q => q.holding) hp))

theorem equalRegions_alike {p p' q q' : PlacedRegion}
    (hp : withoutCycles.placedRegion p = withoutCycles.placedRegion p')
    (hq : withoutCycles.placedRegion q = withoutCycles.placedRegion q')
    (hs : withoutCycles.session s = withoutCycles.session s') :
    Alike withoutCycles.session (equalRegions p q) (equalRegions p' q') s s' := by
  obtain ⟨hpid, hpregion, _⟩ := placedRegion_eq hp
  obtain ⟨hqid, hqregion, _⟩ := placedRegion_eq hq
  have hp' : p.holding.region = p'.holding.region := hpregion
  have hq' : q.holding.region = q'.holding.region := hqregion
  unfold equalRegions
  rw [hpid, hqid, hp', hq']
  split
  · exact .pure hs _
  · split
    · exact (markingOfRegion_alike _ hs).bind fun _ h =>
        (markingOfRegion_alike _ h).bind fun _ h' => .pure h' _
    · exact .pure hs _

theorem equal_alike (left right : Operand)
    (hs : withoutCycles.session s = withoutCycles.session s') :
    Alike withoutCycles.session (equal left right) (equal left right) s s' := by
  refine operand_alike left hs fun a a' ha _ => operand_alike right hs fun b b' hb _ => ?_
  cases ha with
  | value v => cases hb <;> exact .pure hs _
  | object r => cases hb <;> exact .pure hs _
  | region hp =>
    cases hb with
    | value v => exact .pure hs _
    | object r => exact .pure hs _
    | region hq => exact equalRegions_alike hp hq hs

theorem identity_alike (name : SlotName)
    (hs : withoutCycles.session s = withoutCycles.session s') :
    Alike withoutCycles.session (identity name) (identity name) s s' := by
  refine regionAt_alike hs fun p p' _ _ _ hp => ?_
  obtain ⟨_, hregion, _, hsystem⟩ := placedRegion_eq hp
  have hregion' : p.holding.region = p'.holding.region := hregion
  rw [hregion', hsystem]
  exact (onRegion_alike hs hp (Region.initialMarking_alike _
    (congrArg (fun q => q.holding) hp))).bind fun _ h => .pure h _

theorem distinctRegions_alike (items : List SlotName)
    (hs : withoutCycles.session s = withoutCycles.session s') :
    Alike withoutCycles.session (distinctRegions items) (distinctRegions items) s s' :=
  (Alike.mapM (fun name _ _ h => identity_alike name h) items hs).bind fun _ h => .pure h _

/-! ## Commands to objects -/

theorem tellUtility_alike {p p' : PlacedUtility}
    (hp : withoutCycles.placedUtility p = withoutCycles.placedUtility p')
    (hU : p.utility.Calm p.system) (hU' : p'.utility.Calm p'.system) (c : UtilityCommand)
    (hs : withoutCycles.session s = withoutCycles.session s') :
    Alike withoutCycles.session (tellUtility p c) (tellUtility p' c) s s' := by
  have heq := hp
  obtain ⟨u, U, S⟩ := p
  obtain ⟨u', U', S'⟩ := p'
  obtain ⟨rfl, hview, rfl⟩ := placedUtility_eq hp
  cases c with
  | tree slot =>
    exact (onUtility_alike hs heq (RegionUtility.spanningTree_alike S hview)).bind fun _ h =>
      (keep_alike slot _ h).bind fun _ h' => .pure h' _
  | reachable =>
    exact (onUtility_alike hs heq (RegionUtility.reachableStates_alike S hview)).bind fun _ h =>
      .pure h _
  | unreachable =>
    exact (onUtility_alike hs heq (RegionUtility.unreachableStates_alike S hview)).bind fun _ h =>
      .pure h _
  | lookupVector id =>
    refine (onUtility_alike hs heq (RegionUtility.lookupVector_alike S id hview)).bind
      fun found h => ?_
    cases found <;> exact .pure h _
  | reachingVector id =>
    exact (onUtility_alike hs heq (RegionUtility.reachingVector_alike S id hview)).bind fun _ h =>
      .pure h _
  | parikhMatrix =>
    obtain ⟨cycles, rfl⟩ := RegionUtility.exists_of_withoutCycles_eq hview
    exact (onUtility_alike hs heq (RegionUtility.parikhRows_alike S hview)).bind fun _ h =>
      .pure h _
  | cycleMatrix =>
    obtain ⟨cycles, rfl⟩ := RegionUtility.exists_of_withoutCycles_eq hview
    exact (onUtility_alike hs heq (hU.cycleRows_alike hU' hview)).bind fun _ h => .pure h _
  | cycleVectors =>
    exact (onUtility_alike hs heq (hU.writtenCycleVectors_alike hU' hview)).bind fun _ h =>
      .pure h _
  | _ => exact View.tellUtility_alike heq rfl hs

theorem tellRegion_alike {p p' : PlacedRegion}
    (hp : withoutCycles.placedRegion p = withoutCycles.placedRegion p')
    (hU : p.holding.utility.Calm p.system) (hU' : p'.holding.utility.Calm p'.system)
    (c : RegionCommand) (hs : withoutCycles.session s = withoutCycles.session s') :
    Alike withoutCycles.session (tellRegion false p c) (tellRegion true p' c) s s' := by
  have heq := hp
  obtain ⟨r, ⟨R, U⟩, S⟩ := p
  obtain ⟨r', ⟨R', U'⟩, S'⟩ := p'
  obtain ⟨rfl, hregion, hview, rfl⟩ := placedRegion_eq hp
  obtain rfl : R = R' := hregion
  have howner : withoutCycles.placedUtility ⟨R.utility, U, S⟩ =
      withoutCycles.placedUtility ⟨R.utility, U', S⟩ := congrArg (PlacedUtility.mk R.utility · S) hview
  have hholding : Holding.withoutCycles ⟨R, U⟩ = Holding.withoutCycles ⟨R, U'⟩ :=
    congrArg (Holding.mk R) hview
  cases c with
  | isConsistent =>
    exact (onRegion_alike hs heq (Region.isConsistent_alike hU hU' hholding)).bind fun _ h =>
      .pure h _
  | initialMarking =>
    exact (onRegion_alike hs heq (Region.initialMarking_alike S hholding)).bind fun _ h =>
      .pure h _
  | normalMarking =>
    exact (onRegion_alike hs heq (Region.normalMarking_alike S hholding)).bind fun _ h => .pure h _
  | markingOf id =>
    exact (onRegion_alike hs heq (Region.markingOf_alike S id hholding)).bind fun _ h => .pure h _
  | addScaled other factor slot =>
    have hadd := View.addOperand_alike heq id (fun _ : factor.integer? .factor = .ok 0 => rfl) other
      slot hs
    simp only [id, bind_pure] at hadd
    exact hadd
  | purify slot =>
    exact (onUtility_alike hs howner (R.purified_alike hU hU' hview)).bind fun R' h =>
      produce_alike R' slot h
  | showEvents =>
    obtain ⟨cycles, rfl⟩ := RegionUtility.exists_of_withoutCycles_eq hview
    exact (onRegion_alike hs heq (Region.initialMarking_alike S hholding)).bind fun _ h =>
      .pure h _
  | «show» => exact .pure hs _
  | _ => exact View.tellRegion_alike heq false true rfl hs

theorem tellBuilder_alike {p p' : PlacedBuilder}
    (hp : withoutCycles.placedBuilder p = withoutCycles.placedBuilder p')
    (hU : p.utility.Calm p.system) (hU' : p'.utility.Calm p'.system) (c : BuilderCommand)
    (hs : withoutCycles.session s = withoutCycles.session s') :
    Alike withoutCycles.session (tellBuilder false p c) (tellBuilder true p' c) s s' := by
  have heq := hp
  obtain ⟨b, B, U, S⟩ := p
  obtain ⟨b', B', U', S'⟩ := p'
  obtain ⟨rfl, rfl, hview, rfl⟩ := placedBuilder_eq hp
  cases c with
  | finishNormal slot =>
    have howner : withoutCycles.placedUtility ⟨B.utility, U, S⟩ =
        withoutCycles.placedUtility ⟨B.utility, U', S⟩ :=
      congrArg (PlacedUtility.mk B.utility · S) hview
    exact (onUtility_alike hs howner (B.finishNormal_alike hU hU' hview)).bind fun R h =>
      produce_alike R slot h
  | _ => exact View.tellBuilder_alike heq false true rfl hs

/-! ## All commands -/

/-- Every utility is in step with its system. -/
def Calm (s : Session) : Prop := ∀ u p, s.utility? u = some p → p.utility.Calm p.system

theorem perform_alike (hs : withoutCycles.session s = withoutCycles.session s') (hcalm : s.Calm)
    (hcalm' : s'.Calm) (c : Command) :
    Alike withoutCycles.session (perform false c) (perform true c) s s' := by
  cases c with
  | cycleBasis system tree =>
    cases tree with
    | none => exact View.perform_alike false true rfl hs
    | some name =>
      exact systemAt_alike hs fun _ S => treeAt_alike hs fun t => basis_alike t S hs
  | toTree on command => exact treeAt_alike hs fun t => tellTree_alike t command hs
  | toUtility on command =>
    exact utilityAt_alike hs fun p p' hp hp' heq =>
      tellUtility_alike heq (hcalm _ p hp) (hcalm' _ p' hp') command hs
  | toRegion on command =>
    exact regionAt_alike hs fun p p' _ hp hp' heq =>
      tellRegion_alike heq (hcalm _ _ (region?_eq_some_iff.1 hp).2.2)
        (hcalm' _ _ (region?_eq_some_iff.1 hp').2.2) command hs
  | equal left right => exact (equal_alike left right hs).bind fun _ h => .pure h _
  | distinct items => exact (distinctRegions_alike items hs).bind fun _ h => .pure h _
  | toBuilder on command =>
    exact builderAt_alike hs fun b p p' hp hp' heq =>
      tellBuilder_alike heq (hcalm _ _ (builder?_eq_some_iff.1 hp).2.2)
        (hcalm' _ _ (builder?_eq_some_iff.1 hp').2.2) command hs
  | _ => exact View.perform_alike false true rfl hs

end Session

end RegionCalculus
