import RegionCalculus.Proofs.Answers
import RegionCalculus.Proofs.Construction

/-!
# The kept markings of a region

A region keeps its derived initial marking and the markings of states that were asked for. While the
system stays as it is, they are what would be computed anew.

* `Holding.Derive S h h'`: the utility keeps one result more, or the region one marking more.
* `Region.start? S events R`: the initial marking, computed anew.
* `Region.InStep S events R`: the weights fit the events, and what `R` keeps is what would be
  computed for `S`.
* `Region.InStep.initialMarking_answer`, `markingOf_answer`: the answers of a region in step.
-/

namespace RegionCalculus
set_option autoImplicit false

/-- The normal marking of net weights, as far as the kept vectors tell. -/
def RegionUtility.keptMarking? (S : System) (net : List Int) (U : RegionUtility) : Option Int :=
  if S.written.states.isEmpty then some 0
  else U.vectors.map fun table => normalMarking table S.lts.states net

/-- An answered normal marking can be read off the kept vectors. -/
theorem RegionUtility.normalMarkingFor_state {S : System} {U : RegionUtility} {net : List Int}
    {m : Int} (h : (normalMarkingFor S net U).answer = .ok m) :
    (normalMarkingFor S net U).state.keptMarking? S net = some m := by
  cases hempty : S.written.states.isEmpty with
  | true =>
    rw [normalMarkingFor_of_empty hempty] at h ⊢
    obtain rfl : 0 = m := Except.ok.inj h
    rw [keptMarking?, if_pos hempty]
  | false =>
    rw [normalMarkingFor_of_nonempty hempty] at h ⊢
    obtain ⟨table, hv, hm, hstate⟩ := Attempt.bind_ok h
    rw [keptMarking?, if_neg (by simp [hempty]), hstate, ← Except.ok.inj hm]
    exact congrArg (Option.map _) (parikhVectors_state hv)

/-- An answered vector is one of the kept vectors. -/
theorem RegionUtility.reachingVector_state {S : System} {U : RegionUtility} {v : Value}
    {vector : List Int} (h : (reachingVector S v U).answer = .ok vector) :
    ∃ table, (reachingVector S v U).state.vectors = some table ∧
      table.lookup v.key = some vector := by
  obtain ⟨found, hfound, hvector, hstate⟩ := Attempt.bind_ok h
  obtain ⟨_, _, hrest, hstate'⟩ := Attempt.bind_ok hfound
  obtain ⟨table, hv, hlookup, hstate''⟩ := Attempt.bind_ok hrest
  have hkept := parikhVectors_state hv
  have hfound' : table.lookup v.key = found := Except.ok.inj hlookup
  cases found with
  | none => cases hvector
  | some vector' =>
    rw [Except.ok.inj hvector] at hfound'
    refine ⟨table, ?_, hfound'⟩
    rw [reachingVector, hstate, lookupVector, hstate', hstate'']
    exact hkept

/-! ## Steps of a derivation -/

inductive Holding.Derive (S : System) : Holding → Holding → Prop
  | fill {R : Region} {U U' : RegionUtility} :
      RegionUtility.Fill S U U' → Derive S ⟨R, U⟩ ⟨R, U'⟩
  | marking {R : Region} {U : RegionUtility} {m : Int} :
      R.marking? = none → U.keptMarking? S R.weights.net = some m →
      Derive S ⟨R, U⟩ ⟨{ R with derived := some m }, U⟩
  | state {R : Region} {U : RegionUtility} {k : Key} {table : List (Key × List Int)}
      {vector : List Int} {start : Int} :
      R.markings.lookup k = none → U.vectors = some table → table.lookup k = some vector →
      R.marking? = some start →
      Derive S ⟨R, U⟩ ⟨{ R with markings := (k, start + R.evaluate vector) :: R.markings }, U⟩

theorem Holding.Derive.fills {S : System} {h h' : Holding} (hd : Holding.Derive S h h') :
    Relation.ReflTransGen (RegionUtility.Fill S) h.utility h'.utility := by
  cases hd with
  | fill hf => exact .single hf
  | marking _ _ => exact .refl
  | state _ _ _ _ => exact .refl

namespace Region

variable {S : System} {h h' : Holding}

theorem fills_of_derives (hd : Relation.ReflTransGen (Holding.Derive S) h h') :
    Relation.ReflTransGen (RegionUtility.Fill S) h.utility h'.utility := by
  induction hd with
  | refl => exact .refl
  | tail _ hstep ih => exact ih.trans hstep.fills

/-! ## Queries to the utility -/

theorem ask_state {α : Type} (q : Attempt RegionUtility α) (h : Holding) :
    (ask q h).state = ⟨h.region, (q h.utility).state⟩ := rfl

theorem ask_answer {α : Type} (q : Attempt RegionUtility α) (h : Holding) :
    (ask q h).answer = (q h.utility).answer := rfl

theorem ask_leads {α : Type} {q : Attempt RegionUtility α} {h : Holding}
    (hq : q.Leads (RegionUtility.Fill S) h.utility) : (ask q).Leads (Holding.Derive S) h :=
  Relation.ReflTransGen.lift (Holding.mk h.region) (fun _ _ => Holding.Derive.fill) _ _ hq

theorem isConsistent_eq (S : System) (h : Holding) :
    isConsistent S h = ask (RegionUtility.isConsistent S h.region.weights.net) h := by
  rw [isConsistent, Attempt.bind_of_ok (Attempt.state_apply h), List.nil_append]

theorem normalMarking_eq (S : System) (h : Holding) :
    normalMarking S h = ask (RegionUtility.normalMarkingFor S h.region.weights.net) h := by
  rw [normalMarking, Attempt.bind_of_ok (Attempt.state_apply h), List.nil_append]

theorem isConsistent_leads (S : System) (h : Holding) :
    (isConsistent S).Leads (Holding.Derive S) h := by
  unfold Attempt.Leads
  rw [isConsistent_eq]
  exact ask_leads (RegionUtility.isConsistent_leads S _ _)

theorem normalMarking_leads (S : System) (h : Holding) :
    (normalMarking S).Leads (Holding.Derive S) h := by
  unfold Attempt.Leads
  rw [normalMarking_eq]
  exact ask_leads (RegionUtility.normalMarkingFor_leads S _ _)

/-! ## The initial marking -/

theorem initialMarking_of_some {m : Int} (hm : h.region.marking? = some m) :
    initialMarking S h = ⟨.ok m, h, []⟩ := by
  rw [initialMarking, Attempt.bind_of_ok (Attempt.state_apply h), hm]
  rfl

theorem initialMarking_of_none (hm : h.region.marking? = none) :
    initialMarking S h = (normalMarking S >>= fun m => do
      Attempt.update fun h => { h with region := { h.region with derived := some m } }
      Attempt.note (.markingDerived m)
      return m) h := by
  rw [initialMarking, Attempt.bind_of_ok (Attempt.state_apply h), hm, List.nil_append]

theorem given_of_marking?_none {R : Region} (hm : R.marking? = none) : R.given = none := by
  cases hg : R.given with
  | none => rfl
  | some g => simp [marking?, hg] at hm

theorem initialMarking_leads (S : System) (h : Holding) :
    (initialMarking S).Leads (Holding.Derive S) h := by
  cases hm : h.region.marking? with
  | some m => exact .of_state_eq (by rw [initialMarking_of_some hm])
  | none =>
    unfold Attempt.Leads
    rw [initialMarking_of_none hm]
    refine (normalMarking_leads S h).bind fun m hanswer => ?_
    rw [normalMarking_eq, ask_state]
    rw [normalMarking_eq, ask_answer] at hanswer
    have hkept := RegionUtility.normalMarkingFor_state hanswer
    exact (Attempt.Leads.update (.single (.marking hm hkept))).bind fun _ _ =>
      (Attempt.Leads.note _).bind fun _ _ => .pure _

/-- Nothing of the region but its derived marking changes, and an answered marking is kept. -/
theorem initialMarking_state {m : Int} (hm : (initialMarking S h).answer = .ok m) :
    (initialMarking S h).state.region.marking? = some m ∧
      (initialMarking S h).state.region.weights = h.region.weights ∧
      (initialMarking S h).state.region.markings = h.region.markings := by
  cases hr : h.region.marking? with
  | some m' =>
    rw [initialMarking_of_some hr] at hm ⊢
    obtain rfl : m' = m := by simpa using hm
    exact ⟨hr, rfl, rfl⟩
  | none =>
    rw [initialMarking_of_none hr] at hm ⊢
    cases hn : (normalMarking S h).answer with
    | error f => simp [Attempt.answer_bind_of_error hn] at hm
    | ok n =>
      rw [Attempt.answer_bind_of_ok hn] at hm
      rw [Attempt.state_bind_of_ok hn, normalMarking_eq, ask_state]
      obtain rfl : n = m := Except.ok.inj hm
      refine ⟨?_, rfl, rfl⟩
      change (h.region.given <|> some n) = some n
      rw [given_of_marking?_none hr]
      rfl

/-! ## The marking of a state -/

theorem markingOf_of_some {v : Value} {m : Int} (hm : h.region.markings.lookup v.key = some m) :
    markingOf S v h = ⟨.ok m, h, []⟩ := by
  rw [markingOf, Attempt.bind_of_ok (Attempt.state_apply h), hm]
  rfl

theorem markingOf_of_none {v : Value} (hm : h.region.markings.lookup v.key = none) :
    markingOf S v h = (ask (RegionUtility.reachingVector S v) >>= fun vector =>
      initialMarking S >>= fun start =>
      Attempt.ofExcept (h.region.evaluate? h.utility.size vector) >>= fun effect => do
        Attempt.update fun h => { h with region :=
          { h.region with markings := (v.key, start + effect) :: h.region.markings } }
        return start + effect) h := by
  rw [markingOf, Attempt.bind_of_ok (Attempt.state_apply h), hm, List.nil_append]

theorem evaluate?_ok {R : Region} {events : Nat} {vector : List Int} {x : Int}
    (hx : R.evaluate? events vector = .ok x) : x = R.evaluate vector := by
  unfold evaluate? at hx
  split at hx
  · exact (Except.ok.inj hx).symm
  · cases hx

theorem markingOf_leads (S : System) (v : Value) (h : Holding) :
    (markingOf S v).Leads (Holding.Derive S) h := by
  cases hm : h.region.markings.lookup v.key with
  | some m => exact .of_state_eq (by rw [markingOf_of_some hm])
  | none =>
    unfold Attempt.Leads
    rw [markingOf_of_none hm]
    refine (ask_leads (RegionUtility.reachingVector_leads S v _)).bind fun vector hvector => ?_
    rw [ask_answer] at hvector
    rw [ask_state]
    obtain ⟨table, htable, hlookup⟩ := RegionUtility.reachingVector_state hvector
    generalize (RegionUtility.reachingVector S v h.utility).state = U at htable
    refine (initialMarking_leads S _).bind fun start hstart => ?_
    obtain ⟨hmarking, hweights, hmarkings⟩ := initialMarking_state hstart
    have hkept := RegionUtility.fills_vectors
      (fills_of_derives (initialMarking_leads S ⟨h.region, U⟩)) htable
    generalize (initialMarking S ⟨h.region, U⟩).state = h' at *
    refine Attempt.Leads.bind_of_state_eq rfl fun effect heffect => ?_
    have hvalue : effect = h'.region.evaluate vector := by
      rw [evaluate?_ok heffect, evaluate, evaluate, hweights]
    rw [hvalue]
    have hstep := Holding.Derive.state (S := S) (hmarkings ▸ hm) hkept hlookup hmarking
    exact (Attempt.Leads.update (.single hstep)).bind fun _ _ => .pure _

/-! ## Frames -/

theorem derive_frame (hd : Holding.Derive S h h') :
    h'.region.utility = h.region.utility ∧ h'.region.weights = h.region.weights ∧
      h'.region.given = h.region.given ∧ h'.utility.system = h.utility.system ∧
        h'.utility.events = h.utility.events := by
  cases hd with
  | fill hf => exact ⟨rfl, rfl, rfl, hf.system_eq, hf.events_eq⟩
  | marking _ _ => exact ⟨rfl, rfl, rfl, rfl, rfl⟩
  | state _ _ _ _ => exact ⟨rfl, rfl, rfl, rfl, rfl⟩

theorem derives_frame (hd : Relation.ReflTransGen (Holding.Derive S) h h') :
    h'.region.utility = h.region.utility ∧ h'.region.weights = h.region.weights ∧
      h'.region.given = h.region.given ∧ h'.utility.system = h.utility.system ∧
        h'.utility.events = h.utility.events := by
  induction hd with
  | refl => exact ⟨rfl, rfl, rfl, rfl, rfl⟩
  | tail _ hstep ih =>
    obtain ⟨h₁, h₂, h₃, h₄, h₅⟩ := ih
    obtain ⟨g₁, g₂, g₃, g₄, g₅⟩ := derive_frame hstep
    exact ⟨g₁.trans h₁, g₂.trans h₂, g₃.trans h₃, g₄.trans h₄, g₅.trans h₅⟩

/-! ## Regions in step with their system -/

def start? (S : System) (events : List String) (R : Region) : Except Fault Int :=
  match R.given with
  | some m => .ok m
  | none => S.normalMarking? events R.weights.net

/-- There is one weight of each side per event, and what is kept is what would be computed. -/
structure InStep (S : System) (events : List String) (R : Region) : Prop where
  backward_length : R.weights.backward.length = events.length
  forward_length : R.weights.forward.length = events.length
  derived : ∀ m, R.derived = some m → S.normalMarking? events R.weights.net = .ok m
  markings : ∀ k m, R.markings.lookup k = some m → ∃ start table vector,
    R.start? S events = .ok start ∧ S.vectors? events = .ok table ∧
      table.lookup k = some vector ∧ m = start + R.evaluate vector

theorem Fresh.inStep {events : List String} {R : Region} (hR : R.Fresh events.length) :
    InStep S events R where
  backward_length := hR.backward_length
  forward_length := hR.forward_length
  derived := fun _ h => by simp [hR.derived] at h
  markings := fun _ _ h => by simp [hR.markings] at h

theorem InStep.start_of_marking {events : List String} {R : Region} (hR : InStep S events R)
    {m : Int} (hm : R.marking? = some m) : R.start? S events = .ok m := by
  unfold start?
  cases hg : R.given with
  | some g =>
    obtain rfl : g = m := by simpa [marking?, hg] using hm
    rfl
  | none =>
    have hd : R.derived = some m := by simpa [marking?, hg] using hm
    exact hR.derived m hd

theorem normalMarking?_of_kept {U : RegionUtility} (hU : RegionUtility.InStep S U) {net : List Int}
    {m : Int} (hm : U.keptMarking? S net = some m) : S.normalMarking? U.events net = .ok m := by
  unfold RegionUtility.keptMarking? at hm
  unfold System.normalMarking?
  split at hm
  · rename_i hempty
    rw [if_pos hempty, Option.some.inj hm]
  · rename_i hempty
    obtain ⟨table, htable, rfl⟩ := Option.map_eq_some_iff.1 hm
    rw [if_neg hempty, hU.vectors table htable]
    rfl

theorem InStep.derive {R R' : Region} {U U' : RegionUtility}
    (hd : Holding.Derive S ⟨R, U⟩ ⟨R', U'⟩) (hU : RegionUtility.InStep S U)
    (hR : InStep S U.events R) : InStep S U'.events R' := by
  cases hd with
  | fill hf =>
    rw [hf.events_eq]
    exact hR
  | @marking _ _ m hnone hkept =>
    have hm := normalMarking?_of_kept hU hkept
    refine ⟨hR.backward_length, hR.forward_length, fun m' hm' => ?_, hR.markings⟩
    rw [← Option.some.inj hm']
    exact hm
  | @state _ _ k table vector start hnone htable hlookup hstart =>
    refine ⟨hR.backward_length, hR.forward_length, hR.derived, fun k' m hm => ?_⟩
    rw [List.lookup_cons] at hm
    cases hk : k' == k with
    | false =>
      rw [hk] at hm
      exact hR.markings k' m hm
    | true =>
      rw [hk] at hm
      obtain rfl : k' = k := by simpa using hk
      exact ⟨start, table, vector, hR.start_of_marking hstart, hU.vectors table htable, hlookup,
        (Option.some.inj hm).symm⟩

/-! ## Answers in step -/

theorem InStep.initialMarking_answer {R : Region} {U : RegionUtility}
    (hU : RegionUtility.InStep S U) (hR : InStep S U.events R) :
    (initialMarking S ⟨R, U⟩).answer = R.start? S U.events := by
  cases hm : R.marking? with
  | some m => rw [initialMarking_of_some hm, hR.start_of_marking hm]
  | none =>
    have hnormal : (normalMarking S ⟨R, U⟩).answer = S.normalMarking? U.events R.weights.net := by
      rw [normalMarking_eq, ask_answer]
      exact hU.normalMarkingFor_answer _
    rw [initialMarking_of_none hm, start?, given_of_marking?_none hm]
    cases hn : S.normalMarking? U.events R.weights.net with
    | error f => rw [Attempt.answer_bind_of_error (hnormal.trans hn)]
    | ok m => exact Attempt.answer_bind_of_ok (hnormal.trans hn)

/-- The marking of a state with a vector: the initial marking and the effect of the vector. -/
theorem InStep.markingOf_answer {R : Region} {U : RegionUtility} {v : Value} {start : Int}
    {table : List (Key × List Int)} {vector : List Int} (hU : RegionUtility.InStep S U)
    (hR : InStep S U.events R) (hv : S.vectors? U.events = .ok table)
    (hlookup : table.lookup v.key = some vector)
    (hreach : (RegionUtility.reachingVector S v U).answer = .ok vector)
    (hlen : vector.length = U.size) (hstart : R.start? S U.events = .ok start) :
    (markingOf S v ⟨R, U⟩).answer = .ok (start + R.evaluate vector) := by
  cases hm : R.markings.lookup v.key with
  | some m =>
    obtain ⟨start', table', vector', hstart', hv', hlookup', rfl⟩ := hR.markings v.key m hm
    obtain rfl : start = start' := Except.ok.inj (hstart.symm.trans hstart')
    obtain rfl : table = table' := Except.ok.inj (hv.symm.trans hv')
    obtain rfl : vector = vector' := Option.some.inj (hlookup.symm.trans hlookup')
    rw [markingOf_of_some hm]
  | none =>
    have hfills := RegionUtility.reachingVector_leads S v U
    have hinitial := initialMarking_answer (hU.fills hfills)
      (R := R) ((RegionUtility.fills_frame hfills).2 ▸ hR)
    rw [(RegionUtility.fills_frame hfills).2, hstart] at hinitial
    have hevaluate : R.evaluate? U.size vector = .ok (R.evaluate vector) := if_pos hlen
    have hask : (ask (RegionUtility.reachingVector S v) ⟨R, U⟩).answer = .ok vector := hreach
    rw [markingOf_of_none hm, Attempt.answer_bind_of_ok hask, ask_state,
      Attempt.answer_bind_of_ok hinitial]
    exact Attempt.answer_bind_of_ok (x := Attempt.ofExcept _) hevaluate

/-- Over a valid system, no query for a marking fails: the initial marking is the given one or else
the normal marking, and a state has the net effect of its tree path more. -/
theorem InStep.markings_answer {R : Region} {U : RegionUtility} {init : Value}
    (hU : RegionUtility.InStep S U) (hR : InStep S U.events R) (hS : S.lts.Valid)
    (hi : S.initial? = .ok init) :
    ∃ start n, (initialMarking S ⟨R, U⟩).answer = .ok start ∧
      (normalMarking S ⟨R, U⟩).answer = .ok n ∧ start = R.given.getD n ∧
      (∀ m, n ≤ m ↔ 0 ≤ m ∧ ∀ s, S.lts.Reach init.key s →
        0 ≤ m + S.lts.treePotential init.key U.events R.weights.net s) ∧
      ∀ v : Value, S.lts.Reach init.key v.key → (markingOf S v ⟨R, U⟩).answer =
        .ok (start + S.lts.treePotential init.key U.events R.weights.net v.key) := by
  obtain ⟨n, hn, hleast⟩ := hU.normalMarkingFor_least hS hi R.weights.net
  have hnormal : (normalMarking S ⟨R, U⟩).answer = .ok n := by rw [normalMarking_eq, ask_answer, hn]
  have hstart : R.start? S U.events = .ok (R.given.getD n) := by
    unfold start?
    cases R.given with
    | some g => rfl
    | none => rw [← hU.normalMarkingFor_answer, hn]; rfl
  refine ⟨R.given.getD n, n, ?_, hnormal, rfl, hleast, fun v hv => ?_⟩
  · rw [initialMarking_answer hU hR, hstart]
  · exact hR.markingOf_answer hU (System.vectors?_eq hS hi hU.order)
      (Lts.lookup_vectorTable hS U.events hv) (hU.reachingVector_of_reach hS hi hv)
      (Tree.length_vector _ _ _) hstart

/-- Over a valid system, consistency is answered and says that the tree paths give a potential. -/
theorem isConsistent_answer {R : Region} {U : RegionUtility} {init : Value}
    (hU : RegionUtility.InStep S U) (hS : S.lts.Valid) (hi : S.initial? = .ok init) :
    ∃ b, (isConsistent S ⟨R, U⟩).answer = .ok b ∧
      (b = true ↔ S.lts.Potential init.key (weightOf U.events R.weights.net)
        (S.lts.treePotential init.key U.events R.weights.net)) := by
  rw [isConsistent_eq, ask_answer]
  exact hU.isConsistent_iff hS hi R.weights.net

end Region

end RegionCalculus
