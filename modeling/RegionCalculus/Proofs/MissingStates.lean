import RegionCalculus.Proofs.Histories

/-!
# Which states are refused as unknown

A query can be refused because a state is not known, and the refusal names the state. For utilities and
regions this happens in one place: where a state is looked up that the system does not have. All other
checks are about labels, weights and markings, and a kept tree names states of the system only.

* `MissesOnly P e`: if a state is refused as unknown, `P` holds of it. `Attempt.MissesOnly P x s` says
  so of the answer of an attempt; it is proved part by part, along `bind`.
* `RegionUtility.Sheltered S U`: the system is valid, and what is kept names states of it.
* `Session.Reached.utility_misses`, `region_misses`, `builder_misses`, `Session.equal_misses`,
  `distinct_misses`: which states commands can miss.
-/

namespace RegionCalculus
set_option autoImplicit false

variable {α β σ τ : Type} {P : Value → Prop}

def MissesOnly (P : Value → Prop) (e : Except Fault α) : Prop :=
  ∀ v, e = .error (.unknownState v) → P v

namespace MissesOnly

variable {e : Except Fault α}

theorem ok (a : α) : MissesOnly P (.ok a : Except Fault α) := fun _ h => by cases h

theorem error {f : Fault} (h : ∀ v, f = .unknownState v → P v) :
    MissesOnly P (.error f : Except Fault α) := fun v hv => h v (Except.error.inj hv)

theorem bind {k : α → Except Fault β} (he : MissesOnly P e) (hk : ∀ a, MissesOnly P (k a)) :
    MissesOnly P (e >>= k) := by
  intro v hv
  cases e with
  | error f =>
    have hf : f = .unknownState v := Except.error.inj hv
    exact he v (congrArg Except.error hf)
  | ok a => exact hk a v hv

theorem map {f : α → β} (he : MissesOnly P e) : MissesOnly P (e.map f) := by
  intro v hv
  cases e with
  | error g =>
    have hg : g = .unknownState v := Except.error.inj hv
    exact he v (congrArg Except.error hg)
  | ok a => cases hv

theorem mapM {f : α → Except Fault β} (h : ∀ a, MissesOnly P (f a)) (l : List α) :
    MissesOnly P (l.mapM f) := by
  induction l with
  | nil => exact ok []
  | cons a l ih =>
    rw [List.mapM_cons]
    exact (h a).bind fun _ => ih.bind fun _ => ok _

end MissesOnly

/-! ## Attempts -/

namespace Attempt

def MissesOnly (P : Value → Prop) (x : Attempt σ α) (s : σ) : Prop :=
  RegionCalculus.MissesOnly P (x s).answer

namespace MissesOnly

variable {s : σ}

theorem pure (a : α) : MissesOnly P (Pure.pure a : Attempt σ α) s := .ok a

theorem state : MissesOnly P Attempt.state s := .ok s

theorem update (f : σ → σ) : MissesOnly P (Attempt.update f) s := .ok ()

theorem note (n : Note) : MissesOnly P (Attempt.note n : Attempt σ Unit) s := .ok ()

theorem ofExcept {e : Except Fault α} (h : RegionCalculus.MissesOnly P e) :
    MissesOnly P (Attempt.ofExcept e) s := h

theorem fail {f : Fault} (h : ∀ v, f = .unknownState v → P v) :
    MissesOnly P (Attempt.fail f : Attempt σ α) s := .error h

theorem bind {x : Attempt σ α} {k : α → Attempt σ β} (hx : MissesOnly P x s)
    (hk : ∀ a, (x s).answer = .ok a → MissesOnly P (k a) (x s).state) :
    MissesOnly P (x >>= k) s := by
  intro v hv
  cases h : (x s).answer with
  | error f =>
    have hf := Except.error.inj ((answer_bind_of_error h).symm.trans hv)
    exact hx v (h.trans (congrArg Except.error hf))
  | ok a => exact hk a h v ((answer_bind_of_ok h).symm.trans hv)

theorem mono {Q : Value → Prop} {x : Attempt σ α} (hx : MissesOnly P x s) (h : ∀ v, P v → Q v) :
    MissesOnly Q x s := fun v hv => h v (hx v hv)

theorem bind_pure {x : Attempt σ α} {f : α → β} (hx : MissesOnly P x s) :
    MissesOnly P (x >>= fun a => Pure.pure (f a)) s := hx.bind fun _ _ => pure _

theorem provided {x : Attempt σ Unit} {condition : Bool} (h : MissesOnly P x s) :
    MissesOnly P (Attempt.provided condition x) s := by
  cases condition with
  | false => exact pure ()
  | true => exact h

theorem within {get : σ → τ} {set : τ → σ → σ} {x : Attempt τ α} (h : MissesOnly P x (get s)) :
    MissesOnly P (Attempt.within get set x) s := h

theorem mapM {f : α → Attempt σ β} (h : ∀ a s, MissesOnly P (f a) s) (l : List α) (s : σ) :
    MissesOnly P (l.mapM f) s := by
  induction l generalizing s with
  | nil => exact pure []
  | cons a l ih =>
    rw [List.mapM_cons]
    exact (h a s).bind fun _ _ => (ih _).bind fun _ _ => pure _

end MissesOnly

end Attempt

/-! ## Checks of labels, weights and markings -/

section Checks

theorem integer?_misses (what : Quantity) (v : Value) : MissesOnly P (v.integer? what) := by
  cases v with
  | integer n => exact .ok n
  | _ => exact .error fun _ h => by cases h

theorem readWeights_misses (side : Side) (events : Nat) (given : List Value) :
    MissesOnly P (readWeights side events given) := by
  refine (MissesOnly.mapM (integer?_misses _) given).bind fun weights => ?_
  split
  · exact .ok weights
  · exact .error fun _ h => by cases h

theorem checkSigns_misses (side : Side) (i : Nat) (l : List Int) :
    MissesOnly P (checkSigns side i l) := by
  induction l generalizing i with
  | nil => exact .ok ()
  | cons w rest ih =>
    rw [checkSigns]
    split
    · exact .error fun _ h => by cases h
    · exact ih (i + 1)

theorem checkMarking_misses (m : Option Int) : MissesOnly P (Region.checkMarking m) := by
  cases m with
  | none => exact .ok ()
  | some m =>
    rw [Region.checkMarking]
    split
    · exact .error fun _ h => by cases h
    · exact .ok ()

theorem readMarking_misses (v : Value) : MissesOnly P (Region.readMarking v) := by
  unfold Region.readMarking
  split
  · exact .ok none
  · exact (integer?_misses _ _).map

/-- The one place where weights and marking of a region are checked is not about states. -/
theorem Region.read?_misses (utility : UtilityId) (events : Nat) (backward forward : List Value)
    (marking : Value) : MissesOnly P (Region.read? utility events backward forward marking) := by
  have hweights : MissesOnly P (Weights.read? events backward forward) :=
    (readWeights_misses _ _ _).bind fun _ => (readWeights_misses _ _ _).bind fun _ => .ok _
  refine hweights.bind fun w => ?_
  have hsigns : MissesOnly P w.checkSigns :=
    (checkSigns_misses _ _ _).bind fun _ => checkSigns_misses _ _ _
  exact hsigns.bind fun _ => (readMarking_misses marking).bind fun m =>
    (checkMarking_misses m).bind fun _ => .ok _

theorem Region.addScaled?_misses (R other : Region) (events : Nat) (factor : Value) :
    MissesOnly P (R.addScaled? other events factor) := by
  rw [addScaled?]
  split
  · exact .error fun _ h => by cases h
  · refine (integer?_misses _ factor).bind fun k => ?_
    split
    · exact .ok none
    · exact (Region.read?_misses _ _ _ _ _).map

theorem Region.evaluate?_misses (R : Region) (events : Nat) (vector : List Int) :
    MissesOnly P (R.evaluate? events vector) := by
  rw [evaluate?]
  split
  · exact .ok _
  · exact .error fun _ h => by cases h

theorem RegionUtility.eventIndex?_misses (U : RegionUtility) (event : Value) :
    MissesOnly P (U.eventIndex? event) := by
  cases event with
  | text e =>
    rw [eventIndex?]
    split
    · exact .ok _
    · exact .error fun _ h => by cases h
  | _ => exact .error fun _ h => by cases h

theorem RegionUtility.resolve?_misses (U : RegionUtility) (event : Value) :
    MissesOnly P (U.resolve? event) := by
  cases event with
  | text e => exact U.eventIndex?_misses (.text e)
  | _ =>
    refine (integer?_misses _ _).bind fun i => ?_
    split
    · exact .ok _
    · exact .error fun _ h => by cases h

theorem Builder.addLoop?_misses (B : Builder) (U : RegionUtility) (event weight : Value) :
    MissesOnly P (B.addLoop? U event weight) :=
  (U.resolve?_misses event).bind fun _ => (integer?_misses _ weight).bind fun _ => .ok _

theorem Builder.addScaled?_misses (B : Builder) (R : Region) (events : Nat) (factor : Value) :
    MissesOnly P (B.addScaled? R events factor) := by
  rw [addScaled?]
  split
  · exact .error fun _ h => by cases h
  · exact (integer?_misses _ factor).bind fun _ => .ok _

theorem Builder.ofNet?_misses (utility : UtilityId) (events : Nat) (net : List Value) :
    MissesOnly P (ofNet? utility events net) :=
  (readWeights_misses _ _ _).bind fun _ => .ok _

end Checks

/-! ## Utilities -/

theorem System.spanningTree?_misses (S : System) : MissesOnly P S.spanningTree? := by
  rw [spanningTree?, initial?]
  cases S.written.initial with
  | none => exact .error fun _ h => by cases h
  | some init => exact .ok _

namespace RegionUtility

variable {S : System} {U : RegionUtility}

structure Sheltered (S : System) (U : RegionUtility) : Prop where
  valid : S.lts.Valid
  within : U.Within S

theorem Sheltered.fills {U' : RegionUtility} (h : Sheltered S U)
    (hfills : Relation.ReflTransGen (Fill S) U U') : Sheltered S U' :=
  ⟨h.valid, h.within.fills h.valid hfills⟩

theorem fault_misses (S : System) (t : WrittenTree) (gap : Gap Key) :
    ∀ v, fault S t gap = .unknownState v → P v := by
  cases gap <;> exact fun _ h => by cases h

theorem spanningTree_misses (S : System) (U : RegionUtility) :
    (spanningTree S).MissesOnly P U := by
  refine Attempt.MissesOnly.state.bind fun U' _ => ?_
  split
  · exact .pure _
  · have hbuild : S.buildTree.MissesOnly P U :=
      (Attempt.MissesOnly.ofExcept S.spanningTree?_misses).bind fun _ _ =>
        (Attempt.MissesOnly.note _).bind fun _ _ => .pure _
    exact hbuild.bind fun _ _ => (Attempt.MissesOnly.update _).bind fun _ _ => .pure _

theorem parikhVectors_misses (S : System) (U : RegionUtility) :
    (parikhVectors S).MissesOnly P U := by
  refine Attempt.MissesOnly.state.bind fun U' _ => ?_
  split
  · exact .pure _
  · refine (spanningTree_misses S _).bind fun t _ => ?_
    split
    · exact .fail (fault_misses S t _)
    · exact (Attempt.MissesOnly.update _).bind fun _ _ =>
        (Attempt.MissesOnly.note _).bind fun _ _ => .pure _

/-- The states of the tree, kept or new, are states of the system: the extra arcs are there. -/
theorem Sheltered.extraArcs? (h : Sheltered S U) {t : WrittenTree} (ht : U.tree = some t) :
    t.tree.extraArcs? S.lts = .ok (t.tree.extraArcs S.lts) :=
  Tree.extraArcs?_of_subset (h.within.tree t ht)

theorem Sheltered.cycleVectors_misses (h : Sheltered S U) : (cycleVectors S).MissesOnly P U := by
  refine Attempt.MissesOnly.state.bind fun U' hU' => ?_
  obtain rfl : U = U' := Except.ok.inj hU'
  split
  · exact .pure _
  · refine (parikhVectors_misses S U).bind fun table _ => ?_
    refine (spanningTree_misses S _).bind fun t ht => ?_
    have hkept := (h.fills (parikhVectors_leads S U)).fills (spanningTree_leads S _)
    have htree : (spanningTree S (parikhVectors S U).state).state.tree = some t := by
      rw [spanningTree_state ht]
    simp only [hkept.extraArcs? htree]
    split
    · exact .fail (fault_misses S t _)
    · exact (Attempt.MissesOnly.update _).bind fun _ _ =>
        (Attempt.MissesOnly.note _).bind fun _ _ => .pure _

/-- A vector is looked up for a state that the system has, and no other. -/
theorem lookupVector_misses (S : System) (v : Value) (U : RegionUtility) :
    (lookupVector S v).MissesOnly (fun w => w = v ∧ ¬S.Has v) U := by
  have hrequire : MissesOnly (fun w => w = v ∧ ¬S.Has v) (S.require v) := by
    rw [System.require]
    split
    · exact .ok ()
    · exact .error fun w hw => ⟨(Fault.unknownState.inj hw).symm, ‹_›⟩
  exact (Attempt.MissesOnly.ofExcept hrequire).bind fun _ _ => (parikhVectors_misses S _).bind_pure

theorem reachingVector_misses (S : System) (v : Value) (U : RegionUtility) :
    (reachingVector S v).MissesOnly (fun w => w = v ∧ ¬S.Has v) U := by
  refine (lookupVector_misses S v U).bind fun found _ => ?_
  cases found with
  | none => exact .fail fun _ h => by cases h
  | some vector => exact .pure _

theorem Sheltered.isConsistent_misses (h : Sheltered S U) (net : List Int) :
    (isConsistent S net).MissesOnly P U := h.cycleVectors_misses.bind_pure

theorem normalMarkingFor_misses (S : System) (net : List Int) (U : RegionUtility) :
    (normalMarkingFor S net).MissesOnly P U := by
  unfold normalMarkingFor
  split
  · exact .pure _
  · exact (parikhVectors_misses S U).bind_pure

theorem Sheltered.finishNormal_misses (h : Sheltered S U) (B : Builder) (watched : Bool) :
    (B.finishNormal S watched).MissesOnly P U := by
  have hinspect : (B.inspect S).MissesOnly P U := by
    refine (h.isConsistent_misses _).bind fun b _ => ?_
    split
    · exact .pure _
    · exact .note _
  exact hinspect.provided.bind fun _ _ => (normalMarkingFor_misses S _ _).bind fun _ _ =>
    Attempt.MissesOnly.state.bind fun _ _ => .ofExcept (Region.read?_misses _ _ _ _ _)

theorem Sheltered.purified_misses (h : Sheltered S U) (R : Region) (watched : Bool) :
    (R.purified S watched).MissesOnly P U := by
  refine Attempt.MissesOnly.state.bind fun U' hU' => ?_
  obtain rfl : U = U' := Except.ok.inj hU'
  exact (Attempt.MissesOnly.ofExcept (Builder.ofNet?_misses _ _ _)).bind fun B _ =>
    h.finishNormal_misses B watched

end RegionUtility

/-! ## Regions -/

namespace Region

variable {S : System} {h : Holding}

theorem isConsistent_misses (hU : h.utility.Sheltered S) : (isConsistent S).MissesOnly P h :=
  Attempt.MissesOnly.state.bind fun _ _ => .within (hU.isConsistent_misses _)

theorem normalMarking_misses (S : System) (h : Holding) : (normalMarking S).MissesOnly P h :=
  Attempt.MissesOnly.state.bind fun _ _ => .within (RegionUtility.normalMarkingFor_misses S _ _)

theorem initialMarking_misses (S : System) (h : Holding) : (initialMarking S).MissesOnly P h := by
  refine Attempt.MissesOnly.state.bind fun h' _ => ?_
  split
  · exact .pure _
  · exact (normalMarking_misses S _).bind fun _ _ => (Attempt.MissesOnly.update _).bind fun _ _ =>
      (Attempt.MissesOnly.note _).bind fun _ _ => .pure _

theorem markingOf_misses (S : System) (v : Value) (h : Holding) :
    (markingOf S v).MissesOnly (fun w => w = v ∧ ¬S.Has v) h := by
  refine Attempt.MissesOnly.state.bind fun h' _ => ?_
  split
  · exact .pure _
  · refine (Attempt.MissesOnly.within (RegionUtility.reachingVector_misses S v _)).bind
      fun vector _ => ?_
    exact (initialMarking_misses S _).bind fun _ _ =>
      (Attempt.MissesOnly.ofExcept (evaluate?_misses _ _ _)).bind fun _ _ =>
        (Attempt.MissesOnly.update _).bind fun _ _ => .pure _

end Region

/-! ## Sessions -/

namespace Session

variable {s : Session} {u : UtilityId} {r : RegionId}

theorem Reached.sheltered (hs : s.Reached) {p : PlacedUtility} (hp : s.utility? u = some p) :
    p.utility.Sheltered p.system := ⟨hs.valid hp, hs.within u p hp⟩

/-! ## Commands -/

theorem lookup_misses (pick : Session → Ref → Option α) (name : SlotName) (s : Session) :
    (lookup pick name).MissesOnly P s := by
  unfold Attempt.MissesOnly lookup
  split
  · exact .ok _
  · exact .error fun _ h => by cases h

theorem keep_misses (slot : Keep) (r : Ref) (s : Session) : (keep slot r).MissesOnly P s :=
  .update _

theorem produce_misses (R : Region) (slot : Keep) (s : Session) :
    (produce R slot).MissesOnly P s := by
  have hadd : (addRegion R).MissesOnly P s := .ok _
  exact hadd.bind fun _ _ => (keep_misses _ _ _).bind fun _ _ => .pure _

theorem operand_misses (o : Operand) (s : Session) : (operand o).MissesOnly P s := by
  cases o with
  | value v => exact .pure _
  | slot name =>
    refine (lookup_misses _ name s).bind fun r _ => Attempt.MissesOnly.state.bind fun s' _ => ?_
    split <;> exact .pure _

theorem onUtility_misses {p : PlacedUtility} {x : Attempt RegionUtility α}
    (h : x.MissesOnly P p.utility) (s : Session) : (onUtility p x).MissesOnly P s := h

theorem onRegion_misses {p : PlacedRegion} {x : Attempt Holding α}
    (h : x.MissesOnly P p.holding) (s : Session) : (onRegion p x).MissesOnly P s := h

/-- A utility misses a state only if it is asked for that state. -/
theorem Reached.utility_misses (hs : s.Reached) {p : PlacedUtility}
    (hp : s.utility? u = some p) (c : UtilityCommand) :
    (tellUtility p c).MissesOnly
      (fun v => (c = .lookupVector v ∨ c = .reachingVector v) ∧ ¬p.system.Has v) s := by
  have hU := hs.sheltered hp
  cases c with
  | system slot => exact (keep_misses _ _ _).bind fun _ _ => .pure _
  | tree slot =>
    exact (onUtility_misses (RegionUtility.spanningTree_misses _ _) s).bind fun _ _ =>
      (keep_misses _ _ _).bind fun _ _ => .pure _
  | size => exact .pure _
  | events => exact .pure _
  | «show» => exact .pure _
  | eventIndex event =>
    exact (Attempt.MissesOnly.ofExcept (p.utility.eventIndex?_misses event)).bind_pure
  | reachable =>
    exact (onUtility_misses (RegionUtility.spanningTree_misses _ _).bind_pure s).bind_pure
  | unreachable =>
    exact (onUtility_misses (RegionUtility.spanningTree_misses _ _).bind_pure s).bind_pure
  | lookupVector id =>
    have hlookup := RegionUtility.lookupVector_misses p.system id p.utility
    refine (onUtility_misses (hlookup.mono ?_) s).bind fun found _ => ?_
    · rintro _ ⟨rfl, hnot⟩
      exact ⟨.inl rfl, hnot⟩
    · split <;> exact .pure _
  | reachingVector id =>
    have hreach := RegionUtility.reachingVector_misses p.system id p.utility
    refine (onUtility_misses (hreach.mono ?_) s).bind_pure
    rintro _ ⟨rfl, hnot⟩
    exact ⟨.inr rfl, hnot⟩
  | parikhMatrix =>
    exact (onUtility_misses ((RegionUtility.parikhVectors_misses _ _).bind fun _ _ =>
      (RegionUtility.spanningTree_misses _ _).bind_pure) s).bind_pure
  | cycleMatrix => exact (onUtility_misses hU.cycleVectors_misses.bind_pure s).bind_pure
  | cycleVectors =>
    exact (onUtility_misses (hU.cycleVectors_misses.bind fun _ _ =>
      (RegionUtility.spanningTree_misses _ _).bind_pure) s).bind_pure

/-- A region misses a state only if it is asked for the marking of that state. -/
theorem Reached.region_misses (hs : s.Reached) {p : PlacedRegion} (hp : s.region? r = some p)
    (watched : Bool) (c : RegionCommand) :
    (tellRegion watched p c).MissesOnly (fun v => c = .markingOf v ∧ ¬p.system.Has v) s := by
  have hU : p.holding.utility.Sheltered p.system := hs.sheltered (region?_eq_some_iff.1 hp).2.2
  cases c with
  | utility slot => exact (keep_misses _ _ _).bind fun _ _ => .pure _
  | system slot => exact (keep_misses _ _ _).bind fun _ _ => .pure _
  | backward => exact .pure _
  | forward => exact .pure _
  | net => exact .pure _
  | isPure => exact .pure _
  | «show» => exact .pure _
  | backwardOf event =>
    exact (Attempt.MissesOnly.ofExcept (RegionUtility.resolve?_misses _ _)).bind_pure
  | forwardOf event =>
    exact (Attempt.MissesOnly.ofExcept (RegionUtility.resolve?_misses _ _)).bind_pure
  | netOf event =>
    exact (Attempt.MissesOnly.ofExcept (RegionUtility.resolve?_misses _ _)).bind_pure
  | evaluate vector => exact (Attempt.MissesOnly.ofExcept (Region.evaluate?_misses _ _ _)).bind_pure
  | isConsistent => exact (onRegion_misses (Region.isConsistent_misses hU) s).bind_pure
  | initialMarking => exact (onRegion_misses (Region.initialMarking_misses _ _) s).bind_pure
  | normalMarking => exact (onRegion_misses (Region.normalMarking_misses _ _) s).bind_pure
  | showEvents => exact (onRegion_misses (Region.initialMarking_misses _ _) s).bind_pure
  | markingOf id =>
    have hmarking := Region.markingOf_misses p.system id p.holding
    refine (onRegion_misses (hmarking.mono ?_) s).bind_pure
    rintro _ ⟨rfl, hnot⟩
    exact ⟨rfl, hnot⟩
  | addScaled other factor slot =>
    refine (operand_misses other s).bind fun e _ => ?_
    cases e with
    | region q =>
      refine (Attempt.MissesOnly.ofExcept (Region.addScaled?_misses _ _ _ _)).bind fun sum _ => ?_
      cases sum with
      | some R => exact produce_misses _ _ _
      | none => exact (keep_misses _ _ _).bind fun _ _ => .pure _
    | _ => exact .fail fun _ h => by cases h
  | purify slot =>
    exact (onUtility_misses (hU.purified_misses _ watched) s).bind fun _ _ =>
      produce_misses _ _ _
  | withMarking marking slot =>
    exact (Attempt.MissesOnly.ofExcept (Region.read?_misses _ _ _ _ _)).bind fun _ _ =>
      produce_misses _ _ _

/-- A builder never misses a state. -/
theorem Reached.builder_misses (hs : s.Reached) {b : BuilderId} {p : PlacedBuilder}
    (hp : s.builder? b = some p) (watched : Bool) (c : BuilderCommand) :
    (tellBuilder watched p c).MissesOnly P s := by
  have hU : p.utility.Sheltered p.system := hs.sheltered (builder?_eq_some_iff.1 hp).2.2
  have hrebuild : ∀ B slot (s' : Session), (rebuild p.id B slot).MissesOnly P s' :=
    fun _ _ _ => (Attempt.MissesOnly.update _).bind fun _ _ =>
      (keep_misses _ _ _).bind fun _ _ => .pure _
  cases c with
  | weights => exact .pure _
  | «show» => exact .pure _
  | addLoop event weight slot =>
    exact (Attempt.MissesOnly.ofExcept (Builder.addLoop?_misses _ _ _ _)).bind fun _ _ =>
      hrebuild _ _ _
  | addScaled other factor slot =>
    refine (operand_misses other s).bind fun e _ => ?_
    cases e with
    | region q =>
      exact (Attempt.MissesOnly.ofExcept (Builder.addScaled?_misses _ _ _ _)).bind fun _ _ =>
        hrebuild _ _ _
    | _ => exact .fail fun _ h => by cases h
  | purify slot => exact hrebuild _ _ _
  | finish marking slot =>
    exact (Attempt.MissesOnly.ofExcept (Region.read?_misses _ _ _ _ _)).bind fun _ _ =>
      produce_misses _ _ _
  | finishNormal slot =>
    exact (onUtility_misses (hU.finishNormal_misses _ watched) s).bind fun _ _ =>
      produce_misses _ _ _

theorem markingOfRegion_misses (r : RegionId) (s : Session) :
    (markingOfRegion r).MissesOnly P s := by
  refine Attempt.MissesOnly.state.bind fun s' _ => ?_
  split
  · exact onRegion_misses (Region.initialMarking_misses _ _) _
  · exact .pure _

/-- Whatever is compared, no state is missed. -/
theorem equal_misses (left right : Operand) (s : Session) : (equal left right).MissesOnly P s := by
  have hregions : ∀ p q (s' : Session), (equalRegions p q).MissesOnly P s' := by
    intro p q s'
    unfold equalRegions
    split
    · exact .pure _
    · split
      · exact (markingOfRegion_misses _ _).bind fun _ _ => (markingOfRegion_misses _ _).bind_pure
      · exact .pure _
  refine (operand_misses left s).bind fun a _ => (operand_misses right _).bind fun b _ => ?_
  cases a with
  | value v => cases b <;> exact .pure _
  | region p =>
    cases b with
    | region q => exact hregions p q _
    | _ => exact .pure _
  | object r => cases b <;> exact .pure _

theorem distinct_misses (items : List SlotName) (s : Session) :
    (distinctRegions items).MissesOnly P s := by
  have hidentity : ∀ name (s' : Session), (identity name).MissesOnly P s' := fun name s' =>
    (lookup_misses _ name s').bind fun _ _ =>
      (onRegion_misses (Region.initialMarking_misses _ _) _).bind_pure
  exact (Attempt.MissesOnly.mapM hidentity items s).bind_pure

end Session

end RegionCalculus
