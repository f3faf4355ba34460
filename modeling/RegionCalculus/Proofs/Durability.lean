import RegionCalculus.Proofs.Equality
import RegionCalculus.Proofs.UncountedArcs

/-!
# Answers do not depend on what is kept

As long as the system stays as it is, a query is answered alike, and fails alike, however many results
are kept already. For the results of a utility this follows part by part from how they are computed. For
the markings of a region it needs that what is kept is what would be computed.

* `Attempt.Durable R x`: `x` takes steps of `R`, and no step of `R` changes its answer; `Durable.bind`.
* `RegionUtility.durable_parikhVectors`, `durable_cycleVectors` and their like: queries to a utility.
* `Holding.Faithful S h`: the markings that a region keeps come from the vectors that its utility keeps.
  It holds of every region (`Session.Reached.faithful`).
* `Region.markingOf_answer`: the marking of a state, in terms of other answers.
* `RegionCommand.Inquires c`: the command asks for a property of the region.
* `Session.PlacedRegion.Resembles p q`: the same is answered about both; `tellRegion_of_resembles`.
-/

namespace RegionCalculus
set_option autoImplicit false

/-! ## Durable attempts -/

namespace Attempt

variable {σ α β : Type} {R : σ → σ → Prop} {x : Attempt σ α}

/-- The attempt takes steps of `R` only, and such steps do not change its answer. -/
structure Durable (R : σ → σ → Prop) (x : Attempt σ α) : Prop where
  leads : ∀ s, x.Leads R s
  answer : ∀ s s', R s s' → (x s').answer = (x s).answer

namespace Durable

theorem answer_of_steps (h : Durable R x) {s s' : σ} (hsteps : Relation.ReflTransGen R s s') :
    (x s').answer = (x s).answer := by
  induction hsteps with
  | refl => rfl
  | tail _ hstep ih => exact (h.answer _ _ hstep).trans ih

theorem pure (a : α) : Durable R (Pure.pure a : Attempt σ α) where
  leads := fun _ => .pure a
  answer := fun _ _ _ => rfl

theorem note (n : Note) : Durable R (Attempt.note n) where
  leads := fun _ => .note n
  answer := fun _ _ _ => rfl

theorem fail (f : Fault) : Durable R (Attempt.fail f : Attempt σ α) where
  leads := fun _ => .fail f
  answer := fun _ _ _ => rfl

theorem ofExcept (e : Except Fault α) : Durable R (Attempt.ofExcept e) where
  leads := fun _ => .ofExcept e
  answer := fun _ _ _ => rfl

/-- The rest of a durable attempt might as well be run in the state before it. -/
theorem answer_bind {k : α → Attempt σ β} (hx : Durable R x) (hk : ∀ a, Durable R (k a)) (s : σ) :
    ((x >>= k) s).answer = (x s).answer >>= fun a => (k a s).answer := by
  cases h : (x s).answer with
  | error f => exact answer_bind_of_error h
  | ok a => exact (answer_bind_of_ok h).trans ((hk a).answer_of_steps (hx.leads s))

theorem bind {k : α → Attempt σ β} (hx : Durable R x) (hk : ∀ a, Durable R (k a)) :
    Durable R (x >>= k) where
  leads := fun s => (hx.leads s).bind fun a _ => (hk a).leads _
  answer := fun s s' hstep => by
    rw [answer_bind hx hk, answer_bind hx hk, hx.answer s s' hstep]
    exact congrArg _ (funext fun a => (hk a).answer s s' hstep)

theorem provided {x : Attempt σ Unit} (h : Durable R x) (condition : Bool) :
    Durable R (Attempt.provided condition x) := by
  cases condition with
  | false => exact .pure ()
  | true => exact h

end Durable

end Attempt

open Attempt

/-! ## Queries to a utility -/

namespace RegionUtility

variable {S : System} {U U' : RegionUtility}

theorem durable_spanningTree (S : System) : Durable (Fill S) (spanningTree S) where
  leads := spanningTree_leads S
  answer := fun U U' h => by
    cases h with
    | tree hnone ht => rw [spanningTree_of_ok hnone ht, spanningTree_of_some rfl]
    | vectors htree _ _ => rw [spanningTree_of_some htree, spanningTree_of_some (by exact htree)]
    | cycles htree _ _ _ _ =>
      rw [spanningTree_of_some htree, spanningTree_of_some (by exact htree)]

/-- The vectors are those that are kept, or come from the tree. -/
theorem parikhVectors_answer (S : System) (U : RegionUtility) :
    (parikhVectors S U).answer = U.vectors.elim
      ((spanningTree S U).answer >>= fun t =>
        (t.tree.parikhTable? U.events).mapError (fault S t)) .ok := by
  cases hv : U.vectors with
  | some table => rw [parikhVectors_of_some hv]; rfl
  | none =>
    rw [parikhVectors_of_none hv]
    cases ht : (spanningTree S U).answer with
    | error f => exact answer_bind_of_error ht
    | ok t =>
      rw [answer_bind_of_ok ht]
      change _ = (t.tree.parikhTable? U.events).mapError (fault S t)
      cases t.tree.parikhTable? U.events <;> rfl

theorem durable_parikhVectors (S : System) : Durable (Fill S) (parikhVectors S) where
  leads := parikhVectors_leads S
  answer := fun U U' h => by
    have htree := (durable_spanningTree S).answer U U' h
    rw [parikhVectors_answer, parikhVectors_answer, htree, h.events_eq]
    cases h with
    | tree _ _ => rfl
    | vectors ht hnone htable =>
      rw [hnone, spanningTree_of_some ht]
      change Except.ok _ = (Tree.parikhTable? _ _).mapError _
      rw [htable]
      rfl
    | cycles _ _ _ _ _ => rfl

/-- The cycle vectors are those that are kept, or come from the vectors and the tree. -/
theorem cycleVectors_answer (S : System) (U : RegionUtility) :
    (cycleVectors S U).answer = U.cycles.elim
      ((parikhVectors S U).answer >>= fun table => (spanningTree S U).answer >>= fun t =>
        (t.tree.extraArcs? S.lts).mapError (t.fault S) >>= fun extra =>
          (RegionCalculus.cycleVectors? U.events table extra).mapError (fault S t)) .ok := by
  cases hc : U.cycles with
  | some cycles => rw [cycleVectors_of_some hc]; rfl
  | none =>
    rw [cycleVectors_of_none hc]
    cases hv : (parikhVectors S U).answer with
    | error f => exact answer_bind_of_error hv
    | ok table =>
      have htree := (durable_spanningTree S).answer_of_steps (parikhVectors_leads S U)
      rw [answer_bind_of_ok hv]
      cases ht : (spanningTree S U).answer with
      | error f => exact answer_bind_of_error (htree.trans ht)
      | ok t =>
        rw [answer_bind_of_ok (htree.trans ht)]
        change _ = (t.tree.extraArcs? S.lts).mapError (t.fault S) >>= fun extra =>
          (RegionCalculus.cycleVectors? U.events table extra).mapError (fault S t)
        cases t.tree.extraArcs? S.lts with
        | error m => rfl
        | ok extra =>
          change _ = (RegionCalculus.cycleVectors? U.events table extra).mapError (fault S t)
          dsimp only
          cases RegionCalculus.cycleVectors? U.events table extra <;> rfl

theorem durable_cycleVectors (S : System) : Durable (Fill S) (cycleVectors S) where
  leads := cycleVectors_leads S
  answer := fun U U' h => by
    have hvectors := (durable_parikhVectors S).answer U U' h
    have htree := (durable_spanningTree S).answer U U' h
    rw [cycleVectors_answer, cycleVectors_answer, hvectors, htree, h.events_eq]
    cases h with
    | tree _ _ => rfl
    | vectors _ _ _ => rfl
    | @cycles _ table extra cycles ht hv hnone hextra hcycles =>
      rw [hnone, spanningTree_of_some ht, parikhVectors_of_some hv]
      change Except.ok cycles = (Tree.extraArcs? _ _).mapError _ >>= _
      rw [hextra]
      change Except.ok cycles = (RegionCalculus.cycleVectors? U.events table extra).mapError _
      rw [hcycles]
      rfl

theorem durable_lookupVector (S : System) (v : Value) : Durable (Fill S) (lookupVector S v) :=
  (Durable.ofExcept _).bind fun _ => (durable_parikhVectors S).bind fun _ => .pure _

theorem durable_reachingVector (S : System) (v : Value) : Durable (Fill S) (reachingVector S v) := by
  refine (durable_lookupVector S v).bind fun found => ?_
  cases found with
  | none => exact .fail _
  | some vector => exact .pure vector

theorem durable_isConsistent (S : System) (net : List Int) :
    Durable (Fill S) (isConsistent S net) := (durable_cycleVectors S).bind fun _ => .pure _

theorem durable_normalMarkingFor (S : System) (net : List Int) :
    Durable (Fill S) (normalMarkingFor S net) := by
  cases hempty : S.written.states.isEmpty with
  | true =>
    rw [normalMarkingFor_of_empty hempty]
    exact .pure 0
  | false =>
    rw [normalMarkingFor_of_nonempty hempty]
    exact (durable_parikhVectors S).bind fun _ => .pure _

end RegionUtility

namespace Builder

theorem durable_inspect (B : Builder) (S : System) :
    Durable (RegionUtility.Fill S) (B.inspect S) := by
  refine (RegionUtility.durable_isConsistent S B.weights.net).bind fun consistent => ?_
  cases consistent with
  | true => exact .pure ()
  | false => exact .note _

/-- The checks look at no more of the utility than the number of its events. -/
theorem durable_checks (B : Builder) (S : System) (m : Int) :
    Durable (RegionUtility.Fill S) (do
      let U ← Attempt.state
      Attempt.ofExcept (Region.ofWeights? B.utility U.size B.weights (some m))) where
  leads := fun U => .of_state_eq rfl
  answer := fun U U' h => by
    change Region.ofWeights? B.utility U'.size B.weights (some m) =
      Region.ofWeights? B.utility U.size B.weights (some m)
    rw [RegionUtility.size, h.events_eq, RegionUtility.size]

theorem durable_finishNormal (B : Builder) (S : System) (watched : Bool) :
    Durable (RegionUtility.Fill S) (B.finishNormal S watched) :=
  ((B.durable_inspect S).provided watched).bind fun _ =>
    (RegionUtility.durable_normalMarkingFor S B.weights.net).bind (B.durable_checks S)

theorem finishNormal_answer_bind (B : Builder) (S : System) (watched : Bool) (U : RegionUtility) :
    (B.finishNormal S watched U).answer = (Attempt.provided watched (B.inspect S) U).answer >>= fun _ =>
      (RegionUtility.normalMarkingFor S B.weights.net U).answer >>= fun m =>
        Region.ofWeights? B.utility U.size B.weights (some m) := by
  have hnormal := RegionUtility.durable_normalMarkingFor S B.weights.net
  rw [finishNormal, ((B.durable_inspect S).provided watched).answer_bind fun _ =>
    hnormal.bind (B.durable_checks S)]
  exact congrArg _ (funext fun _ => hnormal.answer_bind (B.durable_checks S) U)

end Builder

/-- The builder that purifies a region is made for the number of events, which never changes. -/
theorem Region.durable_purified (R : Region) (S : System) (watched : Bool) :
    Durable (RegionUtility.Fill S) (R.purified S watched) where
  leads := R.purified_leads S watched
  answer := fun U U' h => by
    have hbuilt : Durable (RegionUtility.Fill S) (Attempt.ofExcept
        (Builder.ofNet? R.utility U.size (R.weights.net.map .integer)) >>= fun B =>
          B.finishNormal S watched) :=
      (Durable.ofExcept _).bind fun B => B.durable_finishNormal S watched
    rw [purified, bind_of_ok (state_apply U'), bind_of_ok (state_apply U), RegionUtility.size,
      h.events_eq]
    exact hbuilt.answer U U' h

/-! ## Kept markings -/

section Tables

variable {ι : Type} [DecidableEq ι] {events : List String} {table table' : List (ι × List Int)}

theorem length_of_extendTable {a : Arc ι} (h : extendTable events table a = .ok table')
    (hall : ∀ e ∈ table, e.2.length = events.length) : ∀ e ∈ table', e.2.length = events.length := by
  unfold extendTable at h
  split at h
  · cases h
  · rename_i v hv
    split at h
    · cases h
    · rename_i w hw
      rw [← Except.ok.inj h]
      intro e he
      rcases List.mem_append.1 he with he | he
      · exact hall e he
      · rw [List.mem_singleton.1 he, length_countEvent hw]
        exact hall (a.source, v) (mem_of_lookup hv)

theorem length_of_foldlM {as : List (Arc ι)} (h : as.foldlM (extendTable events) table = .ok table')
    (hall : ∀ e ∈ table, e.2.length = events.length) : ∀ e ∈ table', e.2.length = events.length := by
  induction as generalizing table with
  | nil => rwa [← Except.ok.inj h]
  | cons a as ih =>
    rw [List.foldlM_cons] at h
    obtain ⟨mid, hmid, hrest⟩ := except_bind_eq_ok.1 h
    exact ih hrest (length_of_extendTable hmid hall)

/-- Every vector of a tree has one entry per event. -/
theorem length_of_parikhTable? {t : Tree ι} (h : t.parikhTable? events = .ok table) :
    ∀ e ∈ table, e.2.length = events.length := by
  refine length_of_foldlM h fun e he => ?_
  rw [List.mem_singleton.1 he, noEvents, List.length_replicate]

end Tables

theorem RegionUtility.Charted.length_of_lookup {U : RegionUtility} (hU : U.Charted)
    {table : List (Key × List Int)} (hv : U.vectors = some table) {k : Key} {vector : List Int}
    (hk : table.lookup k = some vector) : vector.length = U.size := by
  obtain ⟨t, _, htable⟩ := hU table hv
  exact length_of_parikhTable? htable (k, vector) (mem_of_lookup hk)

namespace Holding

variable {S S' : System} {h h' : Holding}

/-- A marking that is kept for a state comes from the marking and the vectors that are kept. -/
def Recorded (h : Holding) : Prop :=
  ∀ k m, h.region.markings.lookup k = some m → ∃ start table vector,
    h.region.marking? = some start ∧ h.utility.vectors = some table ∧
      table.lookup k = some vector ∧ m = start + h.region.evaluate vector

theorem recorded_of_fresh {R : Region} {U : RegionUtility} {events : Nat} (hR : R.Fresh events) :
    Recorded ⟨R, U⟩ := fun k m hm => by
  rw [show (Holding.mk R U).region.markings = [] from hR.markings] at hm
  cases hm

/-- An initial marking that is given or derived stays. -/
theorem Derive.marking?_eq (hd : Derive S h h') {m : Int} (hm : h.region.marking? = some m) :
    h'.region.marking? = some m := by
  cases hd with
  | fill _ => exact hm
  | marking hnone _ => exact absurd (hnone.symm.trans hm) (by simp)
  | state _ _ _ _ => exact hm

theorem Derive.recorded (hd : Derive S h h') (hh : h.Recorded) : h'.Recorded := by
  intro k m hm
  cases hd with
  | fill hf =>
    obtain ⟨start, table, vector, hstart, hv, hk, hvalue⟩ := hh k m hm
    exact ⟨start, table, vector, hstart, hf.vectors_eq hv, hk, hvalue⟩
  | marking hnone _ =>
    -- without an initial marking, no marking of a state is kept
    obtain ⟨start, _, _, hstart, _⟩ := hh k m hm
    exact absurd (hnone.symm.trans hstart) (by simp)
  | @state R U k' table vector start hnone hv hk hstart =>
    have hm' : ((k', start + R.evaluate vector) :: R.markings).lookup k = some m := hm
    rw [List.lookup_cons] at hm'
    cases hkey : k == k' with
    | false =>
      rw [hkey] at hm'
      exact hh k m hm'
    | true =>
      rw [hkey] at hm'
      obtain rfl : k = k' := by simpa using hkey
      exact ⟨start, table, vector, hstart, hv, hk, (Option.some.inj hm').symm⟩

/-- What the region and its utility keep belongs together and to the system. -/
structure Faithful (S : System) (h : Holding) : Prop where
  recorded : h.Recorded
  within : h.utility.Within S
  charted : h.utility.Charted

theorem Recorded.derives (hh : h.Recorded) (hd : Relation.ReflTransGen (Derive S) h h') :
    h'.Recorded := by
  induction hd with
  | refl => exact hh
  | tail _ hstep ih => exact hstep.recorded ih

theorem Faithful.derives (hh : h.Faithful S) (hS : S.lts.Valid)
    (hd : Relation.ReflTransGen (Derive S) h h') : h'.Faithful S where
  recorded := hh.recorded.derives hd
  within := hh.within.fills hS (Region.fills_of_derives hd)
  charted := hh.charted.fills (Region.fills_of_derives hd)

end Holding

/-! ## Markings that are asked for -/

namespace Region

variable {S : System} {h h' : Holding}

theorem initialMarking_of_derive (hd : Holding.Derive S h h') :
    (initialMarking S h').answer = (initialMarking S h).answer := by
  cases hm : h.region.marking? with
  | some m => rw [initialMarking_of_some hm, initialMarking_of_some (hd.marking?_eq hm)]
  | none =>
    rw [initialMarking_answer_of_none hm, normalMarking_eq, ask_answer]
    cases hd with
    | @fill R U U' hf =>
      have hm' : (Holding.mk R U').region.marking? = none := hm
      rw [initialMarking_answer_of_none hm', normalMarking_eq, ask_answer]
      exact (RegionUtility.durable_normalMarkingFor S R.weights.net).answer U U' hf
    | @marking R U m _ hkept =>
      have hm' : { R with derived := some m }.marking? = some m := by
        rw [marking?, given_of_marking?_none hm]
        rfl
      rw [initialMarking_of_some (h := ⟨{ R with derived := some m }, U⟩) hm',
        RegionUtility.normalMarkingFor_of_keptMarking hkept]
    | state _ _ _ hstart => exact absurd (hm.symm.trans hstart) (by simp)

theorem initialMarking_of_derives (hd : Relation.ReflTransGen (Holding.Derive S) h h') :
    (initialMarking S h').answer = (initialMarking S h).answer := by
  induction hd with
  | refl => rfl
  | tail _ hstep ih => exact (initialMarking_of_derive hstep).trans ih

/-- The marking of a state is the initial marking and the effect of its vector, kept or not. -/
theorem markingOf_answer (hh : h.Faithful S) (v : Value) :
    (markingOf S v h).answer = (RegionUtility.reachingVector S v h.utility).answer >>= fun vector =>
      (initialMarking S h).answer >>= fun start =>
        (h.region.evaluate? h.utility.size vector).map (start + ·) := by
  cases hm : h.region.markings.lookup v.key with
  | some m =>
    obtain ⟨start, table, vector, hstart, hv, hk, rfl⟩ := hh.recorded v.key m hm
    have hhas : S.Has v := hh.within.vectors table hv (v.key, vector) (mem_of_lookup hk)
    have hvector : (RegionUtility.reachingVector S v h.utility).answer = .ok vector := by
      rw [(RegionUtility.reachingVector_of_has hhas _).1, RegionUtility.parikhVectors_of_some hv]
      change (table.lookup v.key).elim _ _ = _
      rw [hk]
      rfl
    rw [markingOf_of_some hm, hvector, initialMarking_of_some hstart]
    change _ = (h.region.evaluate? h.utility.size vector).map (start + ·)
    rw [evaluate?, if_pos (hh.charted.length_of_lookup hv hk)]
    rfl
  | none =>
    rw [markingOf_of_none hm]
    cases hvector : (RegionUtility.reachingVector S v h.utility).answer with
    | error f => exact answer_bind_of_error ((ask_answer _ h).trans hvector)
    | ok vector =>
      have hinitial := initialMarking_of_derives
        (ask_leads (RegionUtility.reachingVector_leads S v h.utility))
      rw [answer_bind_of_ok ((ask_answer _ h).trans hvector)]
      change _ = (initialMarking S h).answer >>= _
      rw [← hinitial]
      cases hstart : (initialMarking S (ask (RegionUtility.reachingVector S v) h).state).answer with
      | error f => exact answer_bind_of_error hstart
      | ok start =>
        rw [answer_bind_of_ok hstart]
        change _ = (h.region.evaluate? h.utility.size vector).map (start + ·)
        cases h.region.evaluate? h.utility.size vector <;> rfl

end Region

/-! ## Questions to regions -/

theorem RegionUtility.resolve?_congr {U U' : RegionUtility} (h : U'.events = U.events) :
    U'.resolve? = U.resolve? := by
  obtain ⟨i, events, _, _, _⟩ := U
  obtain ⟨j, events', _, _, _⟩ := U'
  obtain rfl : events' = events := h
  rfl

theorem Region.shownEvents_congr {R R' : Region} (h : R'.weights = R.weights) :
    R'.shownEvents = R.shownEvents := by
  have hevent : R'.shownEvent = R.shownEvent := funext fun e => by
    rw [shownEvent, shownEvent, h]
  funext events m
  rw [shownEvents, shownEvents, hevent]

/-- The command asks for a property of the region. How the region is shown is none: that tells whether
its marking has been derived by now. -/
def RegionCommand.Inquires : RegionCommand → Prop
  | .backward | .forward | .net | .backwardOf _ | .forwardOf _ | .netOf _ | .isPure | .isConsistent
  | .evaluate _ | .initialMarking | .normalMarking | .markingOf _ | .showEvents => True
  | _ => False

namespace Session

variable {s s' : Session} {r : RegionId} {p : PlacedRegion}

theorem Reached.recorded (hs : s.Reached) : ∀ r p, s.region? r = some p → p.holding.Recorded := by
  induction hs with
  | empty => exact fun r p hp => by cases hp
  | step watched c hprev ih =>
    intro r p hp
    rcases step_region?_cases hprev watched c hp with
      ⟨h, hold, hd⟩ | ⟨h, hfresh, _, hd⟩ | ⟨S, hold, _⟩
    · have hbefore : h.Recorded := ih r _ hold
      exact hbefore.derives hd
    · exact (Holding.recorded_of_fresh hfresh).derives hd
    · exact ih r { p with system := S } hold

theorem Reached.faithful (hs : s.Reached) (hp : s.region? r = some p) :
    p.holding.Faithful p.system :=
  have hU : s.utility? p.owner.id = some p.owner := (region?_eq_some_iff.1 hp).2.2
  { recorded := hs.recorded r p hp
    within := hs.within _ _ hU
    charted := hs.charted _ _ hU }

/-- The regions have the same weights, and whatever else is asked about them is answered alike. -/
structure PlacedRegion.Resembles (p q : PlacedRegion) : Prop where
  weights : q.holding.region.weights = p.holding.region.weights
  events : q.holding.utility.events = p.holding.utility.events
  initial : q.initialAnswer = p.initialAnswer
  vector : ∀ v, (RegionUtility.reachingVector q.system v q.holding.utility).answer =
    (RegionUtility.reachingVector p.system v p.holding.utility).answer
  consistent : ∀ net, (RegionUtility.isConsistent q.system net q.holding.utility).answer =
    (RegionUtility.isConsistent p.system net p.holding.utility).answer
  normal : ∀ net, (RegionUtility.normalMarkingFor q.system net q.holding.utility).answer =
    (RegionUtility.normalMarkingFor p.system net p.holding.utility).answer

namespace PlacedRegion

variable {p q : PlacedRegion}

theorem Resembles.trans {q' : PlacedRegion} (h : p.Resembles q) (h' : q.Resembles q') :
    p.Resembles q' where
  weights := h'.weights.trans h.weights
  events := h'.events.trans h.events
  initial := h'.initial.trans h.initial
  vector := fun v => (h'.vector v).trans (h.vector v)
  consistent := fun net => (h'.consistent net).trans (h.consistent net)
  normal := fun net => (h'.normal net).trans (h.normal net)

/-- Keeping more results changes no answer. -/
theorem resembles_of_derives {h : Holding}
    (hd : Relation.ReflTransGen (Holding.Derive p.system) p.holding h) :
    p.Resembles { p with holding := h } where
  weights := (Region.derives_frame hd).2.1
  events := (Region.derives_frame hd).2.2.2.2
  initial := Region.initialMarking_of_derives hd
  vector := fun v => (RegionUtility.durable_reachingVector p.system v).answer_of_steps
    (Region.fills_of_derives hd)
  consistent := fun net => (RegionUtility.durable_isConsistent p.system net).answer_of_steps
    (Region.fills_of_derives hd)
  normal := fun net => (RegionUtility.durable_normalMarkingFor p.system net).answer_of_steps
    (Region.fills_of_derives hd)

/-- Regions of one utility differ in no answer if neither weights nor initial markings differ. -/
theorem resembles_of_same (hsystem : q.system = p.system)
    (hutility : q.holding.utility = p.holding.utility)
    (hweights : q.holding.region.weights = p.holding.region.weights)
    (hinitial : q.initialAnswer = p.initialAnswer) : p.Resembles q where
  weights := hweights
  events := by rw [hutility]
  initial := hinitial
  vector := fun v => by rw [hsystem, hutility]
  consistent := fun net => by rw [hsystem, hutility]
  normal := fun net => by rw [hsystem, hutility]

end PlacedRegion

theorem tellRegion_of_resembles {p q : PlacedRegion} {c : RegionCommand} (hc : c.Inquires)
    (h : p.Resembles q) (hp : p.holding.Faithful p.system) (hq : q.holding.Faithful q.system)
    (watched : Bool) (s s' : Session) :
    (tellRegion watched q c s').answer = (tellRegion watched p c s).answer := by
  have hresolve := RegionUtility.resolve?_congr h.events
  have hevaluate : q.holding.region.evaluate? q.holding.utility.size =
      p.holding.region.evaluate? p.holding.utility.size := by
    funext vector
    rw [Region.evaluate?, Region.evaluate?, Region.evaluate, Region.evaluate, h.weights,
      RegionUtility.size, h.events, RegionUtility.size]
  cases c with
  | backward | forward | net | isPure => simp only [tellRegion, pure_apply, h.weights]
  | backwardOf e | forwardOf e | netOf e =>
    simp only [tellRegion, answer_bind_pure, ofExcept_apply, hresolve, h.weights]
  | evaluate vector => simp only [tellRegion, answer_bind_pure, ofExcept_apply, hevaluate]
  | isConsistent =>
    rw [tellRegion_isConsistent, tellRegion_isConsistent, Region.isConsistent_eq,
      Region.isConsistent_eq, Region.ask_answer, Region.ask_answer, h.weights, h.consistent]
  | normalMarking =>
    rw [tellRegion_normalMarking, tellRegion_normalMarking, Region.normalMarking_eq,
      Region.normalMarking_eq, Region.ask_answer, Region.ask_answer, h.weights, h.normal]
  | initialMarking =>
    rw [tellRegion_initialMarking, tellRegion_initialMarking]
    exact congrArg _ h.initial
  | markingOf v =>
    rw [tellRegion_markingOf, tellRegion_markingOf, Region.markingOf_answer hq,
      Region.markingOf_answer hp, h.vector, hevaluate]
    exact congrArg _ (congrArg _ (funext fun vector => congrArg (· >>= _) h.initial))
  | showEvents =>
    rw [tellRegion, tellRegion, answer_bind_pure, answer_bind_pure, h.events,
      Region.shownEvents_congr h.weights]
    exact congrArg _ h.initial
  | _ => exact hc.elim

end Session

end RegionCalculus
