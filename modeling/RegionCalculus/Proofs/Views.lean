import RegionCalculus.Proofs.Lockstep

/-!
# Views of sessions

A view forgets some of what utilities and regions keep. Sessions that look the same hold the same
objects up to that, and a command that asks for nothing that is kept does not tell them apart.

* `View`: what is seen of a utility and of a region; `View.session V s`: what is seen of a session.
* `View.lookup_alike` and its like: what slots hold in two sessions that look the same.
* `Command.asks c`: the command may depend on what is kept.
* `View.perform_alike`: the commands that do not.
-/

namespace RegionCalculus
set_option autoImplicit false

open Attempt Session

/-! ## Commands that ask for what is kept -/

def UtilityCommand.asks : UtilityCommand → Bool
  | .system _ | .size | .events | .show | .eventIndex _ => false
  | _ => true

def RegionCommand.asks : RegionCommand → Bool
  | .isConsistent | .initialMarking | .normalMarking | .markingOf _ | .addScaled _ _ _ | .purify _
  | .showEvents | .show => true
  | _ => false

def BuilderCommand.asks : BuilderCommand → Bool
  | .finishNormal _ => true
  | _ => false

/-- The command may depend on what utilities and regions keep. -/
def Command.asks : Command → Bool
  | .toUtility _ c => c.asks
  | .toRegion _ c => c.asks
  | .toBuilder _ c => c.asks
  | .cycleBasis _ (some _) | .toTree _ _ | .equal _ _ | .distinct _ => true
  | _ => false

/-! ## Views -/

structure View where
  utility : RegionUtility → RegionUtility
  region : Region → Region
  system_eq : ∀ U, (utility U).system = U.system
  events_eq : ∀ U, (utility U).events = U.events
  owner_eq : ∀ R, (region R).utility = R.utility
  weights_eq : ∀ R, (region R).weights = R.weights

namespace View

variable {V : View}

/-! ## What is seen -/

def session (V : View) (s : Session) : Session :=
  { s with utilities := s.utilities.map V.utility, regions := s.regions.map V.region }

def holding (V : View) (h : Holding) : Holding := ⟨V.region h.region, V.utility h.utility⟩

def placedUtility (V : View) (p : PlacedUtility) : PlacedUtility :=
  { p with utility := V.utility p.utility }

def placedRegion (V : View) (p : PlacedRegion) : PlacedRegion :=
  { p with holding := V.holding p.holding }

def placedBuilder (V : View) (p : PlacedBuilder) : PlacedBuilder :=
  { p with utility := V.utility p.utility }

theorem utility_eq {U U' : RegionUtility} (h : V.utility U = V.utility U') :
    U.system = U'.system ∧ U.events = U'.events :=
  ⟨by rw [← V.system_eq U, h, V.system_eq], by rw [← V.events_eq U, h, V.events_eq]⟩

theorem region_eq {R R' : Region} (h : V.region R = V.region R') :
    R.utility = R'.utility ∧ R.weights = R'.weights :=
  ⟨by rw [← V.owner_eq R, h, V.owner_eq], by rw [← V.weights_eq R, h, V.weights_eq]⟩

theorem placedUtility_eq {p p' : PlacedUtility} (h : V.placedUtility p = V.placedUtility p') :
    p.id = p'.id ∧ V.utility p.utility = V.utility p'.utility ∧ p.system = p'.system := by
  simpa only [placedUtility, PlacedUtility.mk.injEq] using h

theorem placedRegion_eq {p p' : PlacedRegion} (h : V.placedRegion p = V.placedRegion p') :
    p.id = p'.id ∧ V.region p.holding.region = V.region p'.holding.region ∧
      V.utility p.holding.utility = V.utility p'.holding.utility ∧ p.system = p'.system := by
  simp only [placedRegion, holding, PlacedRegion.mk.injEq, Holding.mk.injEq] at h
  tauto

theorem placedBuilder_eq {p p' : PlacedBuilder} (h : V.placedBuilder p = V.placedBuilder p') :
    p.id = p'.id ∧ p.builder = p'.builder ∧ V.utility p.utility = V.utility p'.utility ∧
      p.system = p'.system := by
  simpa only [placedBuilder, PlacedBuilder.mk.injEq] using h

theorem utility?_session (V : View) (s : Session) (u : UtilityId) :
    (V.session s).utility? u = (s.utility? u).map V.placedUtility := by
  simp only [utility?, session, List.getElem?_map]
  cases s.utilities[u]? with
  | none => rfl
  | some U =>
    simp only [Option.map_some, Option.bind_eq_bind, Option.bind_some, V.system_eq]
    cases s.systems[U.system]? <;> rfl

theorem region?_session (V : View) (s : Session) (r : RegionId) :
    (V.session s).region? r = (s.region? r).map V.placedRegion := by
  simp only [region?, utility?_session]
  simp only [session, List.getElem?_map]
  cases s.regions[r]? with
  | none => rfl
  | some R =>
    simp only [Option.map_some, Option.bind_eq_bind, Option.bind_some, V.owner_eq]
    cases s.utility? R.utility <;> rfl

theorem builder?_session (V : View) (s : Session) (b : BuilderId) :
    (V.session s).builder? b = (s.builder? b).map V.placedBuilder := by
  simp only [builder?, utility?_session]
  change (s.builders[b]?.bind fun B => _) = _
  cases s.builders[b]? with
  | none => rfl
  | some B =>
    simp only [Option.bind_eq_bind, Option.bind_some]
    cases s.utility? B.utility <;> rfl

variable {s s' : Session}

theorem session_eq (hs : V.session s = V.session s') :
    s.systems = s'.systems ∧ s.trees = s'.trees ∧ s.builders = s'.builders ∧ s.slots = s'.slots ∧
      s.utilities.map V.utility = s'.utilities.map V.utility ∧
      s.regions.map V.region = s'.regions.map V.region := by
  simp only [session, Session.mk.injEq] at hs
  tauto

theorem utility?_map (hs : V.session s = V.session s') (u : UtilityId) :
    (s.utility? u).map V.placedUtility = (s'.utility? u).map V.placedUtility := by
  rw [← utility?_session, hs, utility?_session]

theorem region?_map (hs : V.session s = V.session s') (r : RegionId) :
    (s.region? r).map V.placedRegion = (s'.region? r).map V.placedRegion := by
  rw [← region?_session, hs, region?_session]

theorem builder?_map (hs : V.session s = V.session s') (b : BuilderId) :
    (s.builder? b).map V.placedBuilder = (s'.builder? b).map V.placedBuilder := by
  rw [← builder?_session, hs, builder?_session]

theorem session_setUtility (V : View) (s : Session) (u : UtilityId) (U : RegionUtility) :
    V.session (s.setUtility u U) = (V.session s).setUtility u (V.utility U) := by
  simp only [setUtility, session, List.map_set]

theorem session_setRegion (V : View) (s : Session) (r : RegionId) (R : Region) :
    V.session (s.setRegion r R) = (V.session s).setRegion r (V.region R) := by
  simp only [setRegion, session, List.map_set]

/-! ## Slots -/

variable {α β γ : Type} {name : SlotName}

/-- Two runs that look at a slot and go on with what they find there. -/
theorem lookup_alike {pick pick' : Session → Ref → Option α} (seen : α → β)
    {k l : α → Attempt Session γ} (hs : V.session s = V.session s')
    (hpick : ∀ r, s.slots.lookup name = some r → (pick s r).map seen = (pick' s' r).map seen)
    (hk : ∀ r a a', s.slots.lookup name = some r → pick s r = some a → pick' s' r = some a' →
      seen a = seen a' → Alike V.session (k a) (l a') s s') :
    Alike V.session (lookup pick name >>= k) (lookup pick' name >>= l) s s' := by
  obtain ⟨_, _, _, hslots, _⟩ := session_eq hs
  have hfound : ((s.slots.lookup name).bind (pick s)).map seen =
      ((s'.slots.lookup name).bind (pick' s')).map seen := by
    rw [← hslots]
    cases hr : s.slots.lookup name with
    | none => rfl
    | some r => exact hpick r hr
  unfold Alike
  rcases map_eq_cases hfound with ⟨h, h'⟩ | ⟨a, a', h, h', ha⟩
  · have hl : lookup pick name s = ⟨.error (.emptySlot name), s, []⟩ := by rw [lookup, h]
    have hl' : lookup pick' name s' = ⟨.error (.emptySlot name), s', []⟩ := by rw [lookup, h']
    rw [bind_of_error hl, bind_of_error hl']
    exact ⟨rfl, hs⟩
  · have hl : lookup pick name s = ⟨.ok a, s, []⟩ := by rw [lookup, h]
    have hl' : lookup pick' name s' = ⟨.ok a', s', []⟩ := by rw [lookup, h']
    rw [bind_of_ok hl, bind_of_ok hl']
    obtain ⟨r, hr, hpicked⟩ := Option.bind_eq_some_iff.1 h
    obtain ⟨r', hr', hpicked'⟩ := Option.bind_eq_some_iff.1 h'
    obtain rfl := Option.some.inj (hr.symm.trans ((congrArg (List.lookup name) hslots).trans hr'))
    exact hk r a a' hr hpicked hpicked' ha

theorem refAt_alike {k l : Ref → Attempt Session γ} (hs : V.session s = V.session s')
    (hk : ∀ r, s.slots.lookup name = some r → Alike V.session (k r) (l r) s s') :
    Alike V.session (refAt name >>= k) (refAt name >>= l) s s' := by
  obtain ⟨_, _, _, hslots, _⟩ := session_eq hs
  unfold Alike
  cases h : s.slots.lookup name with
  | none =>
    have hl : refAt name s = ⟨.error (.emptySlot name), s, []⟩ := by rw [refAt, lookup, h]; rfl
    have hl' : refAt name s' = ⟨.error (.emptySlot name), s', []⟩ := by
      rw [refAt, lookup, ← hslots, h]
      rfl
    rw [bind_of_error hl, bind_of_error hl']
    exact ⟨rfl, hs⟩
  | some r =>
    have hl : refAt name s = ⟨.ok r, s, []⟩ := by rw [refAt, lookup, h]; rfl
    have hl' : refAt name s' = ⟨.ok r, s', []⟩ := by rw [refAt, lookup, ← hslots, h]; rfl
    rw [bind_of_ok hl, bind_of_ok hl']
    exact hk r h

theorem systemAt_alike {k l : SystemId × System → Attempt Session γ}
    (hs : V.session s = V.session s') (hk : ∀ i S, Alike V.session (k (i, S)) (l (i, S)) s s') :
    Alike V.session (systemAt name >>= k) (systemAt name >>= l) s s' := by
  obtain ⟨hsystems, _⟩ := session_eq hs
  refine lookup_alike id hs (fun r _ => ?_) fun r a a' _ _ _ ha => ?_
  · cases r <;> simp [systemOf?, hsystems]
  · rw [show a' = a from ha.symm]
    exact hk a.1 a.2

theorem utilityAt_alike {k l : PlacedUtility → Attempt Session γ} (hs : V.session s = V.session s')
    (hk : ∀ p p', s.utility? p.id = some p → s'.utility? p'.id = some p' →
      V.placedUtility p = V.placedUtility p' → Alike V.session (k p) (l p') s s') :
    Alike V.session (utilityAt name >>= k) (utilityAt name >>= l) s s' := by
  refine lookup_alike V.placedUtility hs (fun r _ => ?_) fun r p p' _ hp hp' heq => ?_
  · cases r with
    | utility u => exact utility?_map hs u
    | _ => rfl
  · cases r with
    | utility u =>
      obtain ⟨rfl, _⟩ := utility?_eq_some_iff.1 hp
      exact hk p p' hp ((placedUtility_eq heq).1 ▸ hp') heq
    | _ => cases hp

theorem regionAt_alike {k l : PlacedRegion → Attempt Session γ} (hs : V.session s = V.session s')
    (hk : ∀ p p', s.slots.lookup name = some (.region p.id) → s.region? p.id = some p →
      s'.region? p'.id = some p' → V.placedRegion p = V.placedRegion p' →
      Alike V.session (k p) (l p') s s') :
    Alike V.session (regionAt name >>= k) (regionAt name >>= l) s s' := by
  refine lookup_alike V.placedRegion hs (fun r _ => ?_) fun r p p' hslot hp hp' heq => ?_
  · cases r with
    | region i => exact region?_map hs i
    | _ => rfl
  · cases r with
    | region i =>
      obtain ⟨rfl, _⟩ := region?_eq_some_iff.1 hp
      exact hk p p' hslot hp ((placedRegion_eq heq).1 ▸ hp') heq
    | _ => cases hp

theorem builderAt_alike {k l : PlacedBuilder → Attempt Session γ} (hs : V.session s = V.session s')
    (hk : ∀ b p p', s.builder? b = some p → s'.builder? b = some p' →
      V.placedBuilder p = V.placedBuilder p' → Alike V.session (k p) (l p') s s') :
    Alike V.session (builderAt name >>= k) (builderAt name >>= l) s s' := by
  refine lookup_alike V.placedBuilder hs (fun r _ => ?_) fun r p p' _ hp hp' heq => ?_
  · cases r with
    | builder b => exact builder?_map hs b
    | _ => rfl
  · cases r with
    | builder b => exact hk b p p' hp hp' heq
    | _ => cases hp

/-! ## Parts of commands -/

theorem keep_alike (slot : Keep) (r : Ref) (hs : V.session s = V.session s') :
    Alike V.session (keep slot r) (keep slot r) s s' := by
  obtain ⟨_, _, _, hslots, _⟩ := session_eq hs
  cases slot with
  | none => exact .update hs
  | some name =>
    have hkept := congrArg
      (fun t : Session => { t with slots := (name, r) :: t.slots.filter (·.1 ≠ name) }) hs
    exact .update hkept

theorem onUtility_alike {p p' : PlacedUtility} {x y : Attempt RegionUtility α}
    (hs : V.session s = V.session s') (hp : V.placedUtility p = V.placedUtility p')
    (h : Alike V.utility x y p.utility p'.utility) :
    Alike V.session (onUtility p x) (onUtility p' y) s s' := by
  refine .within h fun U U' hU => ?_
  rw [session_setUtility, session_setUtility, hs, hU, (placedUtility_eq hp).1]

theorem onRegion_alike {p p' : PlacedRegion} {x y : Attempt Holding α}
    (hs : V.session s = V.session s') (hp : V.placedRegion p = V.placedRegion p')
    (h : Alike V.holding x y p.holding p'.holding) :
    Alike V.session (onRegion p x) (onRegion p' y) s s' := by
  obtain ⟨hid, hregion, _⟩ := placedRegion_eq hp
  refine .within h fun t t' ht => ?_
  obtain ⟨hR, hU⟩ := Holding.mk.inj ht
  rw [session_setUtility, session_setUtility, session_setRegion, session_setRegion, hs, hR, hU, hid,
    (region_eq hregion).1]

theorem onSystem_alike (hs : V.session s = V.session s') (i : SystemId) (S : System)
    (x : Attempt System α) : Alike V.session (onSystem i S x) (onSystem i S x) s s' :=
  ⟨rfl, congrArg (fun q : Session => q.setSystem i (x S).state) hs⟩

theorem session_addRegion (V : View) (s : Session) (R : Region) :
    V.session { s with regions := s.regions ++ [R] } =
      { V.session s with regions := (V.session s).regions ++ [V.region R] } := by
  simp only [session, List.map_append, List.map_singleton]

theorem session_addUtility (V : View) (s : Session) (U : RegionUtility) :
    V.session { s with utilities := s.utilities ++ [U] } =
      { V.session s with utilities := (V.session s).utilities ++ [V.utility U] } := by
  simp only [session, List.map_append, List.map_singleton]

theorem produce_alike (R : Region) (slot : Keep) (hs : V.session s = V.session s') :
    Alike V.session (produce R slot) (produce R slot) s s' := by
  obtain ⟨_, _, _, _, _, hregions⟩ := session_eq hs
  have hlength : s.regions.length = s'.regions.length := by simpa using congrArg List.length hregions
  have hadd : Alike V.session (addRegion R) (addRegion R) s s' := by
    refine ⟨by rw [addRegion, addRegion, hlength], ?_⟩
    rw [addRegion, addRegion, session_addRegion, session_addRegion, hs]
  exact hadd.bind fun r h => (keep_alike slot _ h).bind fun _ h' => .pure h' _

theorem rebuild_alike (b : BuilderId) (B : Builder) (slot : Keep)
    (hs : V.session s = V.session s') :
    Alike V.session (rebuild b B slot) (rebuild b B slot) s s' :=
  (Alike.update (congrArg (fun q : Session => q.setBuilder b B) hs)).bind fun _ h =>
    (keep_alike slot _ h).bind fun _ h' => .pure h' _

theorem produceBuilder_alike (B : Builder) (slot : Keep) (hs : V.session s = V.session s') :
    Alike V.session (produceBuilder B slot) (produceBuilder B slot) s s' := by
  obtain ⟨_, _, hbuilders, _⟩ := session_eq hs
  have hadd : Alike V.session (addBuilder B) (addBuilder B) s s' := by
    refine ⟨?_, congrArg (fun q : Session => { q with builders := q.builders ++ [B] }) hs⟩
    rw [addBuilder, addBuilder, hbuilders]
  exact hadd.bind fun b h => (keep_alike slot _ h).bind fun _ h' => .pure h' _

theorem produceSystem_alike (S : System) (slot : Keep) (hs : V.session s = V.session s') :
    Alike V.session (produceSystem S slot) (produceSystem S slot) s s' := by
  obtain ⟨hsystems, _⟩ := session_eq hs
  have hadd : Alike V.session (addSystem S) (addSystem S) s s' := by
    refine ⟨?_, congrArg (fun q : Session => { q with systems := q.systems ++ [S] }) hs⟩
    rw [addSystem, addSystem, hsystems]
  exact hadd.bind fun i h => (keep_alike slot _ h).bind fun _ h' => .pure h' _

theorem produceTree_alike (t : WrittenTree) (slot : Keep) (hs : V.session s = V.session s') :
    Alike V.session (produceTree t slot) (produceTree t slot) s s' := by
  obtain ⟨_, htrees, _⟩ := session_eq hs
  have hadd : Alike V.session (addTree t) (addTree t) s s' := by
    refine ⟨?_, congrArg (fun q : Session => { q with trees := q.trees ++ [t] }) hs⟩
    rw [addTree, addTree, htrees]
  exact hadd.bind fun i h => (keep_alike slot _ h).bind fun _ h' => .pure h' _

theorem addUtility_alike (U : RegionUtility) (hs : V.session s = V.session s') :
    Alike V.session (addUtility U) (addUtility U) s s' := by
  obtain ⟨_, _, _, _, hutilities, _⟩ := session_eq hs
  have hlength : s.utilities.length = s'.utilities.length := by
    simpa using congrArg List.length hutilities
  refine ⟨by rw [addUtility, addUtility, hlength], ?_⟩
  rw [addUtility, addUtility, session_addUtility, session_addUtility, hs]

/-! ## Operands -/

/-- The same value or object, or regions that look the same. -/
inductive Twin (V : View) : Entity → Entity → Prop
  | value (v : Value) : Twin V (.value v) (.value v)
  | region {p p' : PlacedRegion} :
      V.placedRegion p = V.placedRegion p' → Twin V (.region p) (.region p')
  | object (r : Ref) : Twin V (.object r) (.object r)

theorem operand_alike {k l : Entity → Attempt Session γ} (x : Operand)
    (hs : V.session s = V.session s')
    (hk : ∀ e e', V.Twin e e' → (∀ q, e = .region q → s.region? q.id = some q) →
      Alike V.session (k e) (l e') s s') :
    Alike V.session (operand x >>= k) (operand x >>= l) s s' := by
  cases x with
  | value v =>
    have hvalue : operand (.value v) = pure (.value v) := rfl
    rw [hvalue, pure_bind, pure_bind]
    exact hk _ _ (.value v) fun q hq => by cases hq
  | slot name =>
    rw [operand, bind_assoc, bind_assoc]
    refine refAt_alike hs fun r _ => ?_
    rw [bind_assoc, bind_assoc]
    refine .state_bind ?_
    have hregion : (s.regionOf? r).map V.placedRegion = (s'.regionOf? r).map V.placedRegion := by
      cases r with
      | region i => exact region?_map hs i
      | _ => rfl
    rcases map_eq_cases hregion with ⟨h, h'⟩ | ⟨q, q', h, h', hq⟩
    · simp only [h, h', pure_bind]
      exact hk _ _ (.object r) fun q hq => by cases hq
    · simp only [h, h', pure_bind]
      refine hk _ _ (.region hq) fun p hp => ?_
      obtain rfl := Entity.region.inj hp
      cases r with
      | region i =>
        obtain ⟨rfl, _⟩ := region?_eq_some_iff.1 h
        exact h
      | _ => cases h

theorem addScaled?_eq {R R' T T' : Region} (hR : V.region R = V.region R')
    (hT : V.region T = V.region T') (events : Nat) (factor : Value) :
    R.addScaled? T events factor = R'.addScaled? T' events factor := by
  obtain ⟨hutility, hweights⟩ := region_eq hR
  obtain ⟨hutility', hweights'⟩ := region_eq hT
  rw [Region.addScaled?, Region.addScaled?, hutility, hweights, hutility', hweights']

theorem factor_of_addScaled? {R T : Region} {events : Nat} {factor : Value}
    (h : R.addScaled? T events factor = .ok none) : factor.integer? .factor = .ok 0 := by
  unfold Region.addScaled? at h
  split at h
  · cases h
  · obtain ⟨k, hk, h⟩ := except_bind_eq_ok.1 h
    split at h
    · rename_i hzero
      rw [hk, hzero]
    · cases hw : Region.ofWeights? R.utility events (R.weights.addScaled T.weights k) none <;>
        simp [hw, Except.map] at h

/-- The answer is seen through `f`. If nothing is added, it is the text of the region itself. -/
theorem addOperand_alike {p p' : PlacedRegion} (hp : V.placedRegion p = V.placedRegion p')
    (f : Answer → β) {factor : Value} (hf : factor.integer? .factor = .ok 0 →
      f (.text p.holding.region.shown) = f (.text p'.holding.region.shown))
    (other : Operand) (slot : Keep) (hs : V.session s = V.session s') :
    Alike V.session (addOperand p other factor slot >>= fun a => pure (f a))
      (addOperand p' other factor slot >>= fun a => pure (f a)) s s' := by
  obtain ⟨hid, hregion, hutility, _⟩ := placedRegion_eq hp
  have hsize : p.holding.utility.size = p'.holding.utility.size :=
    congrArg List.length (utility_eq hutility).2
  simp only [addOperand, bind_assoc]
  refine operand_alike other hs fun e e' he _ => ?_
  cases he with
  | value v => exact (Alike.fail hs _).bind fun _ h => .pure h _
  | object r => exact (Alike.fail hs _).bind fun _ h => .pure h _
  | @region q q' hq =>
    simp only [bind_assoc]
    rw [addScaled?_eq hregion (placedRegion_eq hq).2.1, hsize, hid]
    refine .ofExcept_bind hs fun sum hsum => ?_
    cases sum with
    | none =>
      simp only [bind_assoc, pure_bind, hf (factor_of_addScaled? hsum)]
      exact (keep_alike slot _ hs).bind fun _ h => .pure h _
    | some R => exact (produce_alike R slot hs).bind fun _ h => .pure h _

/-! ## Commands -/

theorem tellUtility_alike {p p' : PlacedUtility} (hp : V.placedUtility p = V.placedUtility p')
    {c : UtilityCommand} (hc : c.asks = false) (hs : V.session s = V.session s') :
    Alike V.session (tellUtility p c) (tellUtility p' c) s s' := by
  obtain ⟨u, ⟨i, events, _, _, _⟩, S⟩ := p
  obtain ⟨u', ⟨i', events', _, _, _⟩, S'⟩ := p'
  obtain ⟨rfl, hutility, rfl⟩ := placedUtility_eq hp
  obtain ⟨rfl, rfl⟩ := utility_eq hutility
  cases c with
  | system slot => exact (keep_alike slot _ hs).bind fun _ h => .pure h _
  | size => exact .pure hs _
  | events => exact .pure hs _
  | «show» => exact .pure hs _
  | eventIndex event => exact (Alike.ofExcept hs _).bind fun _ h => .pure h _
  | _ => cases hc

theorem tellRegion_alike {p p' : PlacedRegion} (hp : V.placedRegion p = V.placedRegion p')
    (watched watched' : Bool) {c : RegionCommand} (hc : c.asks = false)
    (hs : V.session s = V.session s') :
    Alike V.session (tellRegion watched p c) (tellRegion watched' p' c) s s' := by
  obtain ⟨r, ⟨⟨u, w, _, _, _⟩, ⟨i, events, _, _, _⟩⟩, S⟩ := p
  obtain ⟨r', ⟨⟨u', w', _, _, _⟩, ⟨i', events', _, _, _⟩⟩, S'⟩ := p'
  obtain ⟨rfl, hregion, hutility, rfl⟩ := placedRegion_eq hp
  obtain ⟨rfl, rfl⟩ := region_eq hregion
  obtain ⟨rfl, rfl⟩ := utility_eq hutility
  cases c with
  | utility slot => exact (keep_alike slot _ hs).bind fun _ h => .pure h _
  | system slot => exact (keep_alike slot _ hs).bind fun _ h => .pure h _
  | backward => exact .pure hs _
  | forward => exact .pure hs _
  | net => exact .pure hs _
  | backwardOf event => exact (Alike.ofExcept hs _).bind fun _ h => .pure h _
  | forwardOf event => exact (Alike.ofExcept hs _).bind fun _ h => .pure h _
  | netOf event => exact (Alike.ofExcept hs _).bind fun _ h => .pure h _
  | isPure => exact .pure hs _
  | evaluate vector => exact (Alike.ofExcept hs _).bind fun _ h => .pure h _
  | withMarking marking slot =>
    exact (Alike.ofExcept hs _).bind fun R h => produce_alike R slot h
  | _ => cases hc

theorem tellBuilder_alike {p p' : PlacedBuilder} (hp : V.placedBuilder p = V.placedBuilder p')
    (watched watched' : Bool) {c : BuilderCommand} (hc : c.asks = false)
    (hs : V.session s = V.session s') :
    Alike V.session (tellBuilder watched p c) (tellBuilder watched' p' c) s s' := by
  obtain ⟨b, B, ⟨i, events, _, _, _⟩, S⟩ := p
  obtain ⟨b', B', ⟨i', events', _, _, _⟩, S'⟩ := p'
  obtain ⟨rfl, rfl, hutility, rfl⟩ := placedBuilder_eq hp
  obtain ⟨rfl, rfl⟩ := utility_eq hutility
  cases c with
  | weights => exact .pure hs _
  | «show» => exact .pure hs _
  | addLoop event weight slot =>
    exact (Alike.ofExcept hs _).bind fun B h => rebuild_alike b B slot h
  | addScaled other factor slot =>
    refine operand_alike other hs fun e e' he _ => ?_
    cases he with
    | value v => exact .fail hs _
    | object r => exact .fail hs _
    | region hq =>
      obtain ⟨hutility, hweights⟩ := region_eq (placedRegion_eq hq).2.1
      dsimp only
      rw [Builder.addScaled?, Builder.addScaled?, hutility, hweights]
      exact (Alike.ofExcept hs _).bind fun B h => rebuild_alike b B slot h
  | purify slot => exact rebuild_alike b _ slot hs
  | finish marking slot =>
    exact (Alike.ofExcept hs _).bind fun R h => produce_alike R slot h
  | finishNormal slot => cases hc

theorem tellSystem_alike (i : SystemId) (S : System) (c : SystemCommand)
    (hs : V.session s = V.session s') :
    Alike V.session (tellSystem i S c) (tellSystem i S c) s s' := by
  cases c with
  | createState id => exact (onSystem_alike hs i S _).bind fun _ h => .pure h _
  | createStates ids => exact (onSystem_alike hs i S _).bind fun _ h => .pure h _
  | createArc source target label => exact (onSystem_alike hs i S _).bind fun _ h => .pure h _
  | showArc source target label => exact (onSystem_alike hs i S _).bind fun _ h => .pure h _
  | setInitial id => exact (onSystem_alike hs i S _).bind fun _ h => .pure h _
  | initial => exact (Alike.ofExcept hs _).bind fun _ h => .pure h _
  | postset id => exact (Alike.ofExcept hs _).bind fun _ h => .pure h _
  | preset id => exact (Alike.ofExcept hs _).bind fun _ h => .pure h _
  | reachable => exact (Alike.ofExcept hs _).bind fun _ h => .pure h _
  | _ => exact .pure hs _

theorem tellTree_alike (t : WrittenTree) (c : TreeCommand) (hs : V.session s = V.session s') :
    Alike V.session (tellTree t c) (tellTree t c) s s' := by
  cases c with
  | parentArc id =>
    refine (Alike.ofExcept hs _).bind fun a h => ?_
    cases a <;> exact .pure h _
  | depth id => exact (Alike.ofExcept hs _).bind fun _ h => .pure h _
  | rootPath id => exact (Alike.ofExcept hs _).bind fun _ h => .pure h _
  | treePath u v => exact (Alike.ofExcept hs _).bind fun _ h => .pure h _
  | extraArcs system =>
    exact systemAt_alike hs fun _ _ => (Alike.ofExcept hs _).bind fun _ h => .pure h _
  | fundamentalCycles system =>
    exact systemAt_alike hs fun _ _ => (Alike.ofExcept hs _).bind fun _ h => .pure h _
  | _ => exact .pure hs _

theorem buildTree_alike (S : System) (hs : V.session s = V.session s') :
    Alike V.session S.buildTree S.buildTree s s' :=
  (Alike.ofExcept hs _).bind fun _ h => (Alike.note h _).bind fun _ h' => .pure h' _

/-- The cycle basis with respect to a tree. -/
theorem basis_alike (t : WrittenTree) (S : System) (hs : V.session s = V.session s') :
    Alike V.session
      (do
        let cycles ← Attempt.ofExcept (t.cycleBasis? S)
        Attempt.note (.basisFound cycles.length)
        return Answer.cycles cycles)
      (do
        let cycles ← Attempt.ofExcept (t.cycleBasis? S)
        Attempt.note (.basisFound cycles.length)
        return Answer.cycles cycles) s s' :=
  (Alike.ofExcept hs _).bind fun _ h => (Alike.note h _).bind fun _ h' => .pure h' _

/-- A command that asks for nothing that is kept. -/
theorem perform_alike (watched watched' : Bool) {c : Command} (hc : c.asks = false)
    (hs : V.session s = V.session s') :
    Alike V.session (perform watched c) (perform watched' c) s s' := by
  cases c with
  | newSystem name slot => exact produceSystem_alike _ slot hs
  | systemOfArcs triples initial name slot =>
    exact (Alike.ofExcept hs _).bind fun S h => produceSystem_alike S slot h
  | toSystem on command => exact systemAt_alike hs fun i S => tellSystem_alike i S command hs
  | buildTree system slot =>
    exact systemAt_alike hs fun _ S => (buildTree_alike S hs).bind fun t h =>
      produceTree_alike t slot h
  | newTree root slot => exact produceTree_alike _ slot hs
  | cycleBasis system tree =>
    cases tree with
    | none =>
      exact systemAt_alike hs fun _ S => (buildTree_alike S hs).bind fun t h => basis_alike t S h
    | some name => cases hc
  | newUtility system events slot =>
    exact systemAt_alike hs fun i S => (Alike.ofExcept hs _).bind fun order h =>
      (addUtility_alike _ h).bind fun u h' => (keep_alike slot _ h').bind fun _ h'' => .pure h'' _
  | toUtility on command =>
    exact utilityAt_alike hs fun p p' _ _ hp => tellUtility_alike hp hc hs
  | newRegion utility backward forward marking slot =>
    refine utilityAt_alike hs fun p p' _ _ hp => ?_
    obtain ⟨hid, hutility, _⟩ := placedUtility_eq hp
    rw [hid, RegionUtility.size, RegionUtility.size, (utility_eq hutility).2]
    exact (Alike.ofExcept hs _).bind fun R h => produce_alike R slot h
  | toRegion on command =>
    exact regionAt_alike hs fun p p' _ _ _ hp => tellRegion_alike hp watched watched' hc hs
  | same left right => exact refAt_alike hs fun a _ => refAt_alike hs fun b _ => .pure hs _
  | newBuilder utility backward forward slot =>
    refine utilityAt_alike hs fun p p' _ _ hp => ?_
    obtain ⟨hid, hutility, _⟩ := placedUtility_eq hp
    rw [hid, RegionUtility.size, RegionUtility.size, (utility_eq hutility).2]
    exact (Alike.ofExcept hs _).bind fun B h => produceBuilder_alike B slot h
  | builderOfNet utility net slot =>
    refine utilityAt_alike hs fun p p' _ _ hp => ?_
    obtain ⟨hid, hutility, _⟩ := placedUtility_eq hp
    rw [hid, RegionUtility.size, RegionUtility.size, (utility_eq hutility).2]
    exact (Alike.ofExcept hs _).bind fun B h => produceBuilder_alike B slot h
  | builderOfRegion region slot =>
    refine regionAt_alike hs fun p p' _ _ _ hp => ?_
    obtain ⟨hutility, hweights⟩ := region_eq (placedRegion_eq hp).2.1
    rw [Builder.ofRegion, Builder.ofRegion, hutility, hweights]
    exact produceBuilder_alike _ slot hs
  | toBuilder on command =>
    exact builderAt_alike hs fun _ p p' _ _ hp => tellBuilder_alike hp watched watched' hc hs
  | _ => cases hc

end View

end RegionCalculus
