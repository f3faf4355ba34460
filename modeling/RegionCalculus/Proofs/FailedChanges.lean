import RegionCalculus.Proofs.Accounts
import RegionCalculus.Proofs.Slots

/-!
# Changes that fail

A command that changes a system or a builder checks everything before it changes anything. So a failing
one leaves the session as it is, down to the number of the next id. To finish a builder with the normal
marking fails at the end of a computation, and what was computed on the way stays in the utility, but
nothing else has changed. Adding several states stops at the first one that is refused, after those
before it have been added as if one by one.

* `Attempt.AllOrNothing x s`: if `x` fails in `s`, it leaves `s` as it is.
* `Attempt.mapM_error`: a loop fails at a first element, in the state that those before it have made.
* `Command.changes`: the commands that change a system, change a builder or finish one.
* `Session.Unharmed s s'`: at most some utilities of `s'` keep more than they did in `s`.
* `Session.StopsAt watched s on ids f done v`: of the states `ids`, those in `done` are added one by one,
  and then `v` is refused.
* `Session.HarmlessFailures watched s`: what is left of `s` after commands that fail.
* `Session.failures_harmless`: this for every session.
-/

namespace RegionCalculus
set_option autoImplicit false

open Attempt

/-! ## All or nothing -/

theorem except_map_eq_error {ε α β : Type} {e : Except ε α} {g : α → β} {f : ε} :
    e.map g = .error f ↔ e = .error f := by
  cases e <;> simp [Except.map]

namespace Attempt

variable {σ α β : Type} {x : Attempt σ α} {s : σ}

/-- A failing attempt leaves the state as it was. -/
def AllOrNothing (x : Attempt σ α) (s : σ) : Prop := ∀ f, (x s).answer = .error f → (x s).state = s

namespace AllOrNothing

theorem of_state_eq (h : (x s).state = s) : AllOrNothing x s := fun _ _ => h

theorem of_ok {a : α} (h : (x s).answer = .ok a) : AllOrNothing x s := by
  intro f hf
  rw [h] at hf
  cases hf

theorem fail (f : Fault) : AllOrNothing (Attempt.fail f : Attempt σ α) s := of_state_eq rfl

theorem bind_pure (hx : AllOrNothing x s) (g : α → β) :
    AllOrNothing (x >>= fun a => pure (g a)) s := by
  intro f hf
  rw [answer_bind_pure, except_map_eq_error] at hf
  rw [state_bind_pure]
  exact hx f hf

/-- After a first part that changes nothing, the rest decides. -/
theorem bind {k : α → Attempt σ β} (hx : (x s).state = s)
    (hk : ∀ a, (x s).answer = .ok a → AllOrNothing (k a) s) : AllOrNothing (x >>= k) s := by
  intro f hf
  cases h : (x s).answer with
  | error g =>
    rw [state_bind_of_error h]
    exact hx
  | ok a =>
    rw [answer_bind_of_ok h, hx] at hf
    rw [state_bind_of_ok h, hx]
    exact hk a h f hf

end AllOrNothing

/-- A loop that fails does so at a first element, and leaves the state that this one leaves after those
before it. -/
theorem mapM_error {g : α → Attempt σ β} {l : List α} {f : Fault}
    (h : (l.mapM g s).answer = .error f) :
    ∃ done a rest bs, l = done ++ a :: rest ∧ (done.mapM g s).answer = .ok bs ∧
      (g a (done.mapM g s).state).answer = .error f ∧
      (l.mapM g s).state = (g a (done.mapM g s).state).state := by
  induction l generalizing s with
  | nil => cases h
  | cons a l ih =>
    rw [List.mapM_cons] at h
    cases hfirst : (g a s).answer with
    | error e =>
      rw [answer_bind_of_error hfirst] at h
      obtain rfl := Except.error.inj h
      refine ⟨[], a, l, [], rfl, rfl, hfirst, ?_⟩
      rw [List.mapM_cons, state_bind_of_error hfirst]
      rfl
    | ok b =>
      rw [answer_bind_of_ok hfirst, answer_bind_pure, except_map_eq_error] at h
      obtain ⟨done, c, rest, bs, rfl, hdone, hfails, hstate⟩ := ih h
      have hstate' : ((a :: done).mapM g s).state = (done.mapM g (g a s).state).state := by
        rw [List.mapM_cons, state_bind_of_ok hfirst, state_bind_pure]
      refine ⟨a :: done, c, rest, b :: bs, rfl, ?_, ?_, ?_⟩
      · rw [List.mapM_cons, answer_bind_of_ok hfirst, answer_bind_pure, hdone]
        rfl
      · rw [hstate']
        exact hfails
      · rw [hstate', List.mapM_cons, state_bind_of_ok hfirst, state_bind_pure]
        exact hstate

end Attempt

/-! ## Changes of a system -/

namespace System

variable {S : System} {f : Fault}

/-- A state is refused only because it exists. -/
theorem createState_error {v : Value} (h : (createState v S).answer = .error f) :
    f = .stateExists v ∧ S.Has v ∧ (createState v S).state = S := by
  by_cases hnull : v = .null
  · rw [hnull, createState_null] at h
    cases h
  · rw [createState_given hnull] at h ⊢
    by_cases hv : S.Has v
    · rw [if_pos hv] at h ⊢
      exact ⟨(Except.error.inj h).symm, hv, rfl⟩
    · rw [if_neg hv] at h
      cases h

theorem allOrNothing_createState (v : Value) (S : System) : AllOrNothing (createState v) S :=
  fun _ hf => (createState_error hf).2.2

theorem allOrNothing_createArc (source target label : Value) (S : System) :
    AllOrNothing (createArc source target label) S := by
  intro f hf
  unfold createArc at hf ⊢
  split at hf
  · cases hf
  · rfl

theorem allOrNothing_setInitial (v : Value) (S : System) : AllOrNothing (setInitial v) S := by
  intro f hf
  unfold setInitial at hf ⊢
  split at hf
  · cases hf
  · rfl

end System

/-! ## Commands that change something -/

/-- A command that adds a state or an arc or sets the initial state. -/
def SystemCommand.changes : SystemCommand → Bool
  | .createState _ | .createArc _ _ _ | .showArc _ _ _ | .setInitial _ => true
  | _ => false

/-- A command that adds to the weights or finishes them with a given marking. -/
def BuilderCommand.changes : BuilderCommand → Bool
  | .addLoop _ _ _ | .addScaled _ _ _ | .finish _ _ => true
  | _ => false

def Command.changes : Command → Bool
  | .toSystem _ c => c.changes
  | .toBuilder _ c => c.changes
  | _ => false

namespace Session

variable {s : Session} {on : SlotName} {i : SystemId} {S : System}

/-! ## Systems in their places -/

theorem setSystem_self (hS : s.systems[i]? = some S) : s.setSystem i S = s := by
  obtain ⟨hlt, rfl⟩ := List.getElem?_eq_some_iff.1 hS
  unfold setSystem
  rw [List.set_getElem_self hlt]

theorem setSystem_setSystem (s : Session) (i : SystemId) (S S' : System) :
    (s.setSystem i S).setSystem i S' = s.setSystem i S' := by
  unfold setSystem
  rw [List.set_set]

/-- A system that is put in its place again is found in its slot. -/
theorem systemAt_setSystem (hat : (systemAt on s).answer = .ok (i, S)) (S' : System) :
    (systemAt on (s.setSystem i S')).answer = .ok (i, S') := by
  obtain ⟨hslot, hS⟩ := systemAt_ok hat
  have hfound : (s.setSystem i S').systemOf? (.system i) = some (i, S') :=
    congrArg (Option.map fun T => (i, T)) (systems_setSystem hS)
  have hslot' : (s.setSystem i S').slots.lookup on = some (.system i) := hslot
  unfold systemAt lookup
  rw [hslot', Option.bind_some, hfound]

theorem allOrNothing_onSystem {α : Type} {x : Attempt System α} (hS : s.systems[i]? = some S)
    (hx : AllOrNothing x S) : AllOrNothing (onSystem i S x) s := by
  intro f hf
  have hstate : (x S).state = S := hx f hf
  change s.setSystem i (x S).state = s
  rw [hstate]
  exact setSystem_self hS

theorem allOrNothing_tellSystem (hS : s.systems[i]? = some S) {c : SystemCommand}
    (hc : c.changes = true) : AllOrNothing (tellSystem i S c) s := by
  cases c with
  | createState id =>
    exact (allOrNothing_onSystem hS (S.allOrNothing_createState id)).bind_pure _
  | createArc source target label | showArc source target label =>
    exact (allOrNothing_onSystem hS (S.allOrNothing_createArc source target label)).bind_pure _
  | setInitial id =>
    exact (allOrNothing_onSystem hS (S.allOrNothing_setInitial id)).bind_pure _
  | _ => cases hc

/-! ## Builders -/

theorem builderAt_ok {p : PlacedBuilder} (h : (builderAt on s).answer = .ok p) :
    s.builderIn? on = some p := by
  obtain ⟨r, hslot, hr⟩ := lookup_ok h
  rw [builderIn?, hslot]
  exact hr

theorem allOrNothing_tellBuilder (watched : Bool) (p : PlacedBuilder) {c : BuilderCommand}
    (hc : c.changes = true) (s : Session) : AllOrNothing (tellBuilder watched p c) s := by
  cases c with
  | addLoop event weight slot =>
    exact .bind rfl fun B _ => .of_ok (congrArg Outcome.answer (rebuild_apply p.id B slot s))
  | addScaled other factor slot =>
    refine .bind (operand_state other s) fun e _ => ?_
    cases e with
    | region q =>
      exact .bind rfl fun B _ => .of_ok (congrArg Outcome.answer (rebuild_apply p.id B slot s))
    | _ => exact .fail _
  | finish marking slot =>
    exact .bind rfl fun R _ => .of_ok (congrArg Outcome.answer (produce_apply R slot s))
  | _ => cases hc

theorem allOrNothing_perform (watched : Bool) {c : Command} (hc : c.changes = true) (s : Session) :
    AllOrNothing (perform watched c) s := by
  cases c with
  | toSystem on c =>
    exact .bind lookup_state fun found hfound =>
      allOrNothing_tellSystem (systemAt_ok hfound).2 hc
  | toBuilder on c =>
    exact .bind lookup_state fun p _ => allOrNothing_tellBuilder watched p hc s
  | _ => cases hc

/-! ## Finishing with the normal marking -/

/-- At most some utilities of `s'` keep more than they did in `s`: everything else is the same. -/
structure Unharmed (s s' : Session) : Prop where
  systems : s'.systems = s.systems
  trees : s'.trees = s.trees
  regions : s'.regions = s.regions
  builders : s'.builders = s.builders
  slots : s'.slots = s.slots
  utilities : ∀ u p, s.utility? u = some p → ∃ p', s'.utility? u = some p' ∧ p.Becomes p'

theorem Unharmed.refl (s : Session) : s.Unharmed s :=
  ⟨rfl, rfl, rfl, rfl, rfl, fun _ p hp => ⟨p, hp, .refl p⟩⟩

theorem unharmed_setUtility {p : PlacedUtility} {U : RegionUtility}
    (hp : s.utility? p.id = some p)
    (hfills : Relation.ReflTransGen (RegionUtility.Fill p.system) p.utility U) :
    s.Unharmed (s.setUtility p.id U) := by
  refine ⟨rfl, rfl, rfl, rfl, rfl, fun u q hq => ?_⟩
  by_cases hu : p.id = u
  · subst hu
    obtain rfl := Option.some.inj (hp.symm.trans hq)
    have hsystem := (RegionUtility.fills_frame hfills).1
    exact ⟨_, utility?_setUtility hp hsystem, .fills hfills⟩
  · refine ⟨q, ?_, .refl q⟩
    rw [utility?_setUtility_ne hu]
    exact hq

theorem unharmed_finishNormal {p : PlacedBuilder} (hp : s.builderIn? on = some p) (watched : Bool)
    (slot : Keep) {f : Fault} (h : (tellBuilder watched p (.finishNormal slot) s).answer = .error f) :
    s.Unharmed (tellBuilder watched p (.finishNormal slot) s).state := by
  have howner := owner_of_builderIn? hp
  unfold tellBuilder at h ⊢
  cases hfinish : (onUtility p.owner (p.builder.finishNormal p.system watched) s).answer with
  | error g =>
    rw [state_bind_of_error hfinish]
    exact unharmed_setUtility howner (p.builder.finishNormal_leads p.system watched p.utility)
  | ok R =>
    rw [answer_bind_of_ok hfinish, produce_apply] at h
    cases h

/-! ## States one by one -/

theorem step_createState (hat : (systemAt on s).answer = .ok (i, S)) (watched : Bool) (v : Value) :
    (step watched (.toSystem on (.createState v)) s).1.answer =
        (System.createState v S).answer.map .value ∧
      (step watched (.toSystem on (.createState v)) s).2 =
        s.setSystem i (System.createState v S).state := by
  obtain ⟨hanswer, hstate⟩ := step_toSystem hat watched (.createState v)
  rw [hanswer, hstate]
  exact ⟨answer_bind_pure _ _ _, state_bind_pure _ _ _⟩

/-- States that are added together could be added one by one. -/
theorem run_createStates (hat : (systemAt on s).answer = .ok (i, S)) (watched : Bool)
    {done ids : List Value} (h : (System.createStates done S).answer = .ok ids) :
    (run watched (done.map fun v => .toSystem on (.createState v)) s).1.map Result.answer =
        ids.map (fun v => .ok (.value v)) ∧
      (run watched (done.map fun v => .toSystem on (.createState v)) s).2 =
        s.setSystem i (System.createStates done S).state := by
  induction done generalizing s S ids with
  | nil =>
    obtain rfl := Except.ok.inj h
    exact ⟨rfl, (setSystem_self (systemAt_ok hat).2).symm⟩
  | cons v done ih =>
    obtain ⟨hanswer, hstate⟩ := step_createState hat watched v
    unfold System.createStates at h ⊢
    rw [List.mapM_cons] at h ⊢
    obtain ⟨w, hw, hrest, hafter⟩ := bind_ok h
    obtain ⟨ws, hws, hpure, _⟩ := bind_ok hrest
    obtain rfl : w :: ws = ids := Except.ok.inj hpure
    have hat' := systemAt_setSystem hat (System.createState v S).state
    obtain ⟨hanswers, hstates⟩ := ih hat' hws
    rw [hafter, state_bind_pure, List.map_cons, run, hstate]
    refine ⟨?_, ?_⟩
    · rw [List.map_cons, List.map_cons, hanswers, hanswer, hw]
      rfl
    · rw [hstates, setSystem_setSystem]
      rfl

/-- Of the states `ids` that are asked for together, those in `done` are added as if one by one, and then
`v` is refused, be it an old state or one that has just been added. Nothing else is done. -/
structure StopsAt (watched : Bool) (s : Session) (on : SlotName) (ids : List Value) (f : Fault)
    (done : List Value) (v : Value) : Prop where
  split : ∃ rest, ids = done ++ v :: rest
  added : ∃ vs : List Value,
    (run watched (done.map fun w => .toSystem on (.createState w)) s).1.map Result.answer =
      vs.map fun w => .ok (.value w)
  refused : (step watched (.toSystem on (.createState v))
    (run watched (done.map fun w => .toSystem on (.createState w)) s).2).1.answer = .error f
  fault : f = .stateExists v
  state : (step watched (.toSystem on (.createStates ids)) s).2 =
    (run watched (done.map fun w => .toSystem on (.createState w)) s).2

theorem exists_stopsAt (hat : (systemAt on s).answer = .ok (i, S)) (watched : Bool)
    {ids : List Value} {f : Fault}
    (h : (step watched (.toSystem on (.createStates ids)) s).1.answer = .error f) :
    ∃ done v, StopsAt watched s on ids f done v := by
  obtain ⟨hanswer, hstate⟩ := step_toSystem hat watched (.createStates ids)
  have hanswer' : (tellSystem i S (.createStates ids) s).answer =
      (System.createStates ids S).answer.map .values := answer_bind_pure _ _ _
  have hstate' : (tellSystem i S (.createStates ids) s).state =
      s.setSystem i (System.createStates ids S).state := state_bind_pure _ _ _
  rw [hanswer, hanswer', except_map_eq_error] at h
  obtain ⟨done, v, rest, added, hids, hdone, hrefused, hafter⟩ := mapM_error h
  obtain ⟨hf, _, hsame⟩ := System.createState_error hrefused
  obtain ⟨hanswers, hstates⟩ := run_createStates hat watched hdone
  have hat' := systemAt_setSystem hat (System.createStates done S).state
  refine ⟨done, v, ⟨rest, hids⟩, ⟨added, hanswers⟩, ?_, hf, ?_⟩
  · rw [hstates, (step_createState hat' watched v).1]
    exact congrArg (Except.map Answer.value) hrefused
  · rw [hstates, hstate, hstate']
    exact congrArg (s.setSystem i) (hafter.trans hsame)

/-- What is left of `s` after a command that fails. -/
structure HarmlessFailures (watched : Bool) (s : Session) : Prop where
  unchanged : ∀ c f, c.changes = true → (step watched c s).1.answer = .error f →
    (step watched c s).2 = s
  finish : ∀ on slot f,
    (step watched (.toBuilder on (.finishNormal slot)) s).1.answer = .error f →
      s.Unharmed (step watched (.toBuilder on (.finishNormal slot)) s).2
  states : ∀ on i S ids f, (systemAt on s).answer = .ok (i, S) →
    (step watched (.toSystem on (.createStates ids)) s).1.answer = .error f →
      ∃ done v, StopsAt watched s on ids f done v

/-- Whatever a session has come to, a failing change does no harm. -/
theorem failures_harmless (watched : Bool) (s : Session) : s.HarmlessFailures watched where
  unchanged := fun _ f hc hf => allOrNothing_perform watched hc s f hf
  finish := fun on slot f hf => by
    cases hat : (builderAt on s).answer with
    | error g =>
      have hsame : (step watched (.toBuilder on (.finishNormal slot)) s).2 = s :=
        (state_bind_of_error hat).trans lookup_state
      rw [hsame]
      exact .refl s
    | ok p =>
      have hp := builderAt_ok hat
      obtain ⟨hanswer, hstate⟩ := step_toBuilder hp watched (.finishNormal slot)
      rw [hanswer] at hf
      rw [hstate]
      exact unharmed_finishNormal hp watched slot hf
  states := fun _ _ _ _ _ hat hf => exists_stopsAt hat watched hf

/-- The ring with a builder that has been given a negative weight. -/
def strainedRing : Session :=
  (run false [.newBuilder "utility" none none (some "builder"),
    .toBuilder "builder" (.addLoop (.integer 0) (.integer (-1)) none)] ringSession).2

/-- A state that exists is refused, a negative weight once the marking has been derived, and a new id
that comes twice the second time. -/
theorem failures_harmless_strainedRing :
    strainedRing.Reached ∧
      (∃ f, (step false (.toSystem "lts" (.createState (.text "s0"))) strainedRing).1.answer =
          .error f ∧
        (step false (.toSystem "lts" (.createState (.text "s0"))) strainedRing).2 =
          strainedRing) ∧
      (∃ f, (step false (.toBuilder "builder" (.finishNormal none)) strainedRing).1.answer =
          .error f ∧
        strainedRing.Unharmed
          (step false (.toBuilder "builder" (.finishNormal none)) strainedRing).2) ∧
      ∃ f, (step false (.toSystem "lts" (.createStates [.text "x", .null, .text "x"]))
          strainedRing).1.answer = .error f ∧
        ∃ done v, StopsAt false strainedRing "lts" [.text "x", .null, .text "x"] f done v := by
  have hs : strainedRing.Reached := steady_ringSession.reached.run false _
  have hfails : ∀ c, (step false c strainedRing).1.answer.toBool = false →
      ∃ f, (step false c strainedRing).1.answer = .error f := by
    intro c hc
    cases h : (step false c strainedRing).1.answer with
    | error f => exact ⟨f, rfl⟩
    | ok a =>
      rw [h] at hc
      cases hc
  obtain ⟨hunchanged, hfinish, hstates⟩ := failures_harmless false strainedRing
  obtain ⟨f, hf⟩ := hfails (.toSystem "lts" (.createState (.text "s0"))) (by decide +kernel)
  obtain ⟨g, hg⟩ := hfails (.toBuilder "builder" (.finishNormal none)) (by decide +kernel)
  obtain ⟨e, he⟩ := hfails (.toSystem "lts" (.createStates [.text "x", .null, .text "x"]))
    (by decide +kernel)
  have hat : (systemAt "lts" strainedRing).answer = .ok (0, ringSystem) := rfl
  exact ⟨hs, ⟨f, hf, hunchanged _ f rfl hf⟩, ⟨g, hg, hfinish _ _ g hg⟩, e, he,
    hstates _ _ _ _ e hat he⟩

end Session

end RegionCalculus
