import RegionCalculus.Proofs.CycleSpace
import RegionCalculus.Proofs.CycleVectors
import RegionCalculus.Proofs.Futures

/-!
# The accounts of a system

A system accounts for its arcs in several ways: it lists all of them, those out of each state, those
into each state, and their labels. Whatever it is told, also in vain, these lists agree with each other
and with the states and arcs that were created, and nothing is ever struck off.

* `SystemCommand.ids`, `arc?`: the states and the arc that a command asks for.
* `System.newStates S vs`: of the states `vs`, added in turn, those before the first that is refused.
* `Session.statesCreated watched i cs s`, `arcsCreated`: the states and the arcs that the commands `cs`
  create in system `i`, in order.
* `System.Books S ids calls`: the states of `S` are `ids`, and its arcs are those of `calls`, each once.
* `System.Accounts S ids calls`: what the lists of `S` say of each other, of `ids` and of `calls`.
* `System.Extends S S'`: the lists of `S'` go on where those of `S` end.
* `Session.system_keeps_accounts`: a new system keeps accounts of the states and arcs that are created
  in it.
-/

namespace RegionCalculus
set_option autoImplicit false

/-! ## First occurrences -/

section Distinct

variable {α β : Type} [DecidableEq α] [DecidableEq β]

theorem distinct_map_distinct (f : α → β) (l : List α) :
    distinct ((distinct l).map f) = distinct (l.map f) := by
  induction l using List.reverseRecOn with
  | nil => rfl
  | append_singleton l a ih =>
    rw [distinct_concat, List.map_append, List.map_singleton, distinct_concat, ← ih]
    by_cases ha : a ∈ l
    · rw [if_pos ha, if_pos (List.mem_map_of_mem ha)]
    · rw [if_neg ha, List.map_append, List.map_singleton, distinct_concat]
      simp only [List.mem_map, mem_distinct]

theorem distinct_prefix_append (l m : List α) : distinct l <+: distinct (l ++ m) := by
  induction m using List.reverseRecOn with
  | nil => rw [List.append_nil]
  | append_singleton m a ih =>
    rw [← List.append_assoc, distinct_concat]
    split
    · exact ih
    · exact ih.trans (List.prefix_append _ _)

end Distinct

/-! ## Lists of arcs -/

namespace Lts

variable {ι : Type} [DecidableEq ι] {G : Lts ι}

theorem nodup_preset (hG : G.Valid) (v : ι) : (G.preset v).Nodup := by
  refine List.nodup_flatMap.2 ⟨fun u _ => hG.nodup_arcs.filter _, ?_⟩
  refine (nodup_distinct _).imp fun {u w} hne => ?_
  intro a hu hw
  have hsource : a.source = u := (mem_parallel.1 hu).2.1
  have hsource' : a.source = w := (mem_parallel.1 hw).2.1
  exact hne (hsource.symm.trans hsource')

theorem nodup_grouped (hG : G.Valid) : G.grouped.Nodup := nodup_flatMap_postset hG hG.nodup_states

end Lts

/-! ## Books -/

/-- The arc that three values name. -/
def arcOf? (source target : Value) : Value → Option (Arc Value)
  | .text label => some ⟨source, target, label⟩
  | _ => none

/-- The states that a command asks for. -/
def SystemCommand.ids : SystemCommand → List Value
  | .createState id => [id]
  | .createStates ids => ids
  | _ => []

/-- The arc that a command asks for. -/
def SystemCommand.arc? : SystemCommand → Option (Arc Value)
  | .createArc source target label => arcOf? source target label
  | .showArc source target label => arcOf? source target label
  | _ => none

namespace System

variable {S S' : System} {ids more : List Value} {calls : List (Arc Value)}

structure Books (S : System) (ids : List Value) (calls : List (Arc Value)) : Prop where
  valid : S.lts.Valid
  states_eq : S.written.states = ids
  arcs_eq : S.lts.arcs = distinct (calls.map (Arc.map Value.key))

theorem books_new (name : String) : Books { name } [] [] where
  valid := Lts.valid_empty
  states_eq := rfl
  arcs_eq := rfl

/-- A change that adds states and no arc is entered as these states. -/
theorem Books.grow (h : S.Books ids calls) (hgrows : S.Grows S')
    (hstates : S'.written.states = S.written.states ++ more)
    (harcs : S'.written.arcs = S.written.arcs) : S'.Books (ids ++ more) calls where
  valid := hgrows.valid h.valid
  states_eq := by rw [hstates, h.states_eq]
  arcs_eq := by rw [lts_arcs, harcs, ← lts_arcs, h.arcs_eq]

@[simp] theorem states_addArc (S : System) (a : Arc Value) :
    (S.addArc a).written.states = S.written.states := by
  unfold addArc
  split <;> rfl

theorem Books.addArc (h : S.Books ids calls) {a : Arc Value} (hs : S.Has a.source)
    (ht : S.Has a.target) (hl : a.label ≠ "") : (S.addArc a).Books ids (calls ++ [a]) where
  valid := (Change.arc hs ht hl).valid h.valid
  states_eq := by rw [states_addArc, h.states_eq]
  arcs_eq := by
    rw [lts_addArc, List.map_append, List.map_singleton, distinct_concat, h.arcs_eq]
    simp only [mem_distinct]
    split
    · exact h.arcs_eq
    · rfl

/-! ## States that are created -/

/-- Of states that are added in turn, those before the first that is refused, as they are written. -/
def newStates (S : System) : List Value → List Value
  | [] => []
  | v :: vs =>
    match createState v S with
    | ⟨.ok form, S', _⟩ => form :: S'.newStates vs
    | ⟨.error _, _, _⟩ => []

theorem newStates_of_ok {v form : Value} (vs : List Value)
    (h : (createState v S).answer = .ok form) :
    S.newStates (v :: vs) = form :: (createState v S).state.newStates vs := by
  rw [newStates]
  split
  · rename_i hstate
    rw [hstate] at h ⊢
    rw [Except.ok.inj h]
  · rename_i hstate
    rw [hstate] at h
    cases h

theorem newStates_of_error {v : Value} {f : Fault} (vs : List Value)
    (h : (createState v S).answer = .error f) : S.newStates (v :: vs) = [] := by
  rw [newStates]
  split
  · rename_i hstate
    rw [hstate] at h
    cases h
  · rfl

/-- A state is added just as it is answered, and nothing is added if it is refused. -/
theorem createState_states (v : Value) (S : System) :
    (createState v S).state.written.states = S.written.states ++ S.newStates [v] := by
  by_cases hnull : v = .null
  · rw [newStates_of_ok [] (congrArg Outcome.answer (hnull ▸ createState_null S)), hnull,
      createState_null]
    rfl
  · by_cases hv : S.Has v
    · rw [newStates_of_error [] (congrArg Outcome.answer
        ((createState_given hnull S).trans (if_pos hv))), createState_given hnull, if_pos hv,
        List.append_nil]
    · rw [newStates_of_ok [] (congrArg Outcome.answer
        ((createState_given hnull S).trans (if_neg hv))), createState_given hnull, if_neg hv]
      rfl

theorem createStates_states (vs : List Value) (S : System) :
    (createStates vs S).state.written.states = S.written.states ++ S.newStates vs := by
  induction vs generalizing S with
  | nil => exact (List.append_nil _).symm
  | cons v vs ih =>
    rw [createStates, List.mapM_cons]
    cases hv : (createState v S).answer with
    | error f =>
      rw [Attempt.state_bind_of_error hv, newStates_of_error vs hv, createState_states,
        newStates_of_error [] hv]
    | ok form =>
      rw [Attempt.state_bind_of_ok hv, Attempt.state_bind_pure, newStates_of_ok vs hv]
      refine (ih _).trans ?_
      rw [createState_states, newStates_of_ok [] hv, List.append_assoc]
      rfl

theorem createState_arcs (v : Value) (S : System) :
    (createState v S).state.written.arcs = S.written.arcs := by
  by_cases hnull : v = .null
  · rw [hnull, createState_null]
    rfl
  · rw [createState_given hnull]
    split <;> rfl

theorem createStates_arcs (vs : List Value) (S : System) :
    (createStates vs S).state.written.arcs = S.written.arcs :=
  Attempt.Leads.eq_of_steps (f := fun S => S.written.arcs)
    (.mapM (fun v S => .single (createState_arcs v S)) vs S)

/-- To set the initial state adds nothing. -/
theorem setInitial_written (v : Value) (S : System) :
    (setInitial v S).state.written.states = S.written.states ∧
      (setInitial v S).state.written.arcs = S.written.arcs := by
  unfold setInitial
  cases S.require v <;> exact ⟨rfl, rfl⟩

end System

/-! ## Arcs that are created -/

/-- The arc that a command has created in a system, as its answer tells. -/
def SystemCommand.created {α : Type} (c : SystemCommand) : Except Fault α → List (Arc Value)
  | .ok _ => c.arc?.toList
  | .error _ => []

namespace SystemCommand

variable {α β : Type} {c : SystemCommand}

theorem created_map (f : α → β) (x : Except Fault α) : c.created (x.map f) = c.created x := by
  cases x <;> rfl

theorem created_of_none (h : c.arc? = none) (x : Except Fault α) : c.created x = [] := by
  cases x with
  | error f => rfl
  | ok a => rw [created, h, Option.toList_none]

end SystemCommand

theorem System.Books.createArc {S : System} {ids : List Value} {calls : List (Arc Value)}
    (h : S.Books ids calls) (source target label : Value) :
    (System.createArc source target label S).state.Books ids (calls ++
      (SystemCommand.createArc source target label).created
        (System.createArc source target label S).answer) := by
  cases hcheck : S.checkArc source target label with
  | error f =>
    simp only [System.createArc, hcheck, SystemCommand.created, List.append_nil]
    exact h
  | ok a =>
    obtain ⟨hs, ht, l, hl, rfl, rfl⟩ := checkArc_ok_iff.1 hcheck
    simp only [System.createArc, hcheck, SystemCommand.created, SystemCommand.arc?, arcOf?]
    exact h.addArc hs ht hl

/-! ## Commands -/

namespace Session

variable {s s' : Session} {i : SystemId} {S : System} {ids : List Value} {calls : List (Arc Value)}

/-- The states that a command creates in system `i`. -/
def newStates (i : SystemId) (c : Command) (s : Session) : List Value :=
  match c, s.systems[i]? with
  | .toSystem on command, some S =>
    if s.slots.lookup on = some (.system i) then S.newStates command.ids else []
  | _, _ => []

/-- The states that commands create in system `i`, in turn. -/
def statesCreated (watched : Bool) (i : SystemId) : List Command → Session → List Value
  | [], _ => []
  | c :: cs, s => newStates i c s ++ statesCreated watched i cs (step watched c s).2

theorem newStates_of_ne {c : Command} (hc : ∀ on command, c ≠ .toSystem on command) :
    newStates i c s = [] := by
  cases c with
  | toSystem on command => exact absurd rfl (hc on command)
  | _ => rfl

theorem newStates_toSystem (hS : s.systems[i]? = some S) (on : SlotName) (c : SystemCommand) :
    newStates i (.toSystem on c) s =
      if s.slots.lookup on = some (.system i) then S.newStates c.ids else [] := by
  simp only [newStates, hS]

/-- The arc that a command creates in system `i`. -/
def created (watched : Bool) (i : SystemId) (c : Command) (s : Session) : List (Arc Value) :=
  match c with
  | .toSystem on command =>
    if s.slots.lookup on = some (.system i) then command.created (step watched c s).1.answer else []
  | _ => []

theorem created_of_ne {watched : Bool} {c : Command} (hc : ∀ on command, c ≠ .toSystem on command) :
    created watched i c s = [] := by
  cases c with
  | toSystem on command => exact absurd rfl (hc on command)
  | _ => rfl

/-- The arcs that commands create in system `i`, in turn. -/
def arcsCreated (watched : Bool) (i : SystemId) : List Command → Session → List (Arc Value)
  | [], _ => []
  | c :: cs, s => created watched i c s ++ arcsCreated watched i cs (step watched c s).2

theorem systems_setSystem {S' : System} (hS : s.systems[i]? = some S) :
    (s.setSystem i S').systems[i]? = some S' := by
  obtain ⟨hlt, _⟩ := List.getElem?_eq_some_iff.1 hS
  exact List.getElem?_set_self hlt

/-- A command to a system enters the states and the arc that it creates. -/
theorem tellSystem_books (hS : s.systems[i]? = some S) (h : S.Books ids calls) (c : SystemCommand) :
    ∃ S', (tellSystem i S c s).state.systems[i]? = some S' ∧
      S'.Books (ids ++ S.newStates c.ids) (calls ++ c.created (tellSystem i S c s).answer) := by
  -- a command that changes the system puts the changed system in its place
  have hset : ∀ {α : Type} (x : Attempt System α) (f : α → Answer),
      ((onSystem i S x >>= fun a => pure (f a)) s).state.systems[i]? = some (x S).state := by
    intro α x f
    rw [Attempt.state_bind_pure]
    exact systems_setSystem hS
  have hanswer : ∀ {α : Type} (x : Attempt System α) (f : α → Answer),
      c.created ((onSystem i S x >>= fun a => pure (f a)) s).answer = c.created (x S).answer := by
    intro α x f
    rw [Attempt.answer_bind_pure, SystemCommand.created_map]
    rfl
  -- a command that asks for no arc enters none
  have hnone : ∀ {S' : System} {more : List Value}, c.arc? = none → S'.Books (ids ++ more) calls →
      S'.Books (ids ++ more) (calls ++ c.created (tellSystem i S c s).answer) := by
    intro S' more harc hbooks
    rw [SystemCommand.created_of_none harc, List.append_nil]
    exact hbooks
  have hsame : c.arc? = none → c.ids = [] → (tellSystem i S c s).state = s →
      ∃ S', (tellSystem i S c s).state.systems[i]? = some S' ∧
        S'.Books (ids ++ S.newStates c.ids) (calls ++ c.created (tellSystem i S c s).answer) := by
    intro harc hstates hstate
    rw [hstate, hstates]
    exact ⟨S, hS, hnone harc (h.grow .refl (List.append_nil _).symm rfl)⟩
  -- an arc is entered as its answer tells
  have harc : ∀ source target label, S.newStates c.ids = [] →
      (System.createArc source target label S).state.Books (ids ++ S.newStates c.ids) (calls ++
        (SystemCommand.createArc source target label).created
          (System.createArc source target label S).answer) := by
    intro source target label hstates
    rw [hstates, List.append_nil]
    exact h.createArc source target label
  cases c with
  | createState id =>
    exact ⟨_, hset _ _, hnone rfl (h.grow (S.createState_leads id) (System.createState_states id S)
      (System.createState_arcs id S))⟩
  | createStates ids =>
    exact ⟨_, hset _ _, hnone rfl (h.grow (S.createStates_leads ids)
      (System.createStates_states ids S) (System.createStates_arcs ids S))⟩
  | createArc source target label =>
    refine ⟨_, hset _ _, ?_⟩
    rw [tellSystem, hanswer]
    exact harc source target label rfl
  | showArc source target label =>
    refine ⟨_, hset _ _, ?_⟩
    rw [tellSystem, hanswer]
    exact harc source target label rfl
  | setInitial id =>
    obtain ⟨hstates, harcs⟩ := System.setInitial_written id S
    exact ⟨_, hset _ _, hnone rfl (h.grow (S.setInitial_leads id)
      (hstates.trans (List.append_nil _).symm) harcs)⟩
  | initial => exact hsame rfl rfl (Attempt.state_bind_pure _ _ _)
  | postset id => exact hsame rfl rfl (Attempt.state_bind_pure _ _ _)
  | preset id => exact hsame rfl rfl (Attempt.state_bind_pure _ _ _)
  | reachable => exact hsame rfl rfl (Attempt.state_bind_pure _ _ _)
  | _ => exact hsame rfl rfl rfl

/-- What is done to the other objects leaves a system as it is. -/
theorem Touch.systems_eq (h : Touch s s') (hS : s.systems[i]? = some S) :
    s'.systems[i]? = some S := by
  cases h with
  | system _ =>
    obtain ⟨hlt, _⟩ := List.getElem?_eq_some_iff.1 hS
    exact (List.getElem?_append_left hlt).trans hS
  | _ => exact hS

theorem systems_of_touches (h : Relation.ReflTransGen Touch s s') (hS : s.systems[i]? = some S) :
    s'.systems[i]? = some S := by
  induction h with
  | refl => exact hS
  | tail _ hstep ih => exact hstep.systems_eq ih

theorem step_toSystem {on : SlotName} {j : SystemId} {T : System}
    (h : (systemAt on s).answer = .ok (j, T)) (watched : Bool) (c : SystemCommand) :
    (step watched (.toSystem on c) s).1.answer = (tellSystem j T c s).answer ∧
      (step watched (.toSystem on c) s).2 = (tellSystem j T c s).state := by
  have hframe : (systemAt on s).state = s := lookup_state
  refine ⟨?_, ?_⟩
  · change (perform watched (.toSystem on c) s).answer = _
    rw [perform, Attempt.answer_bind_of_ok h, hframe]
  · change (perform watched (.toSystem on c) s).state = _
    rw [perform, Attempt.state_bind_of_ok h, hframe]

/-- One command keeps the books of a system. -/
theorem step_books (watched : Bool) (c : Command) (hS : s.systems[i]? = some S)
    (h : S.Books ids calls) :
    ∃ S', (step watched c s).2.systems[i]? = some S' ∧
      S'.Books (ids ++ newStates i c s) (calls ++ created watched i c s) := by
  by_cases hc : ∃ on command, c = Command.toSystem on command
  · obtain ⟨on, command, rfl⟩ := hc
    cases hat : (systemAt on s).answer with
    | error f =>
      have hframe : (systemAt on s).state = s := lookup_state
      have hstate : (step watched (.toSystem on command) s).2 = s := by
        change (perform watched (.toSystem on command) s).state = s
        rw [perform, Attempt.state_bind_of_error hat, hframe]
      have hanswer : (step watched (.toSystem on command) s).1.answer = .error f :=
        Attempt.answer_bind_of_error hat
      have hnone : created watched i (.toSystem on command) s = [] := by
        rw [created, hanswer, SystemCommand.created, ite_self]
      have hslot : s.slots.lookup on ≠ some (.system i) := by
        intro hslot
        have hok : (systemAt on s).answer = .ok (i, S) := systemAt_of_slot hslot hS
        rw [hat] at hok
        cases hok
      rw [hstate, hnone, newStates_toSystem hS, if_neg hslot, List.append_nil, List.append_nil]
      exact ⟨S, hS, h⟩
    | ok found =>
      obtain ⟨j, T⟩ := found
      obtain ⟨hslot, hT⟩ := systemAt_ok hat
      obtain ⟨hanswer, hstate⟩ := step_toSystem hat watched command
      rw [hstate, created, newStates_toSystem hS, hslot, hanswer]
      by_cases hj : j = i
      · subst hj
        obtain rfl : S = T := Option.some.inj (hS.symm.trans hT)
        rw [if_pos rfl, if_pos rfl]
        exact tellSystem_books hS h command
      · have hother : some (Ref.system j) ≠ some (.system i) := by simpa using hj
        rw [if_neg hother, if_neg hother, List.append_nil, List.append_nil]
        refine ⟨S, ?_, h⟩
        rcases tellSystem_cases j T command s with hsame | ⟨T', _, hset⟩
        · rw [hsame]
          exact hS
        · rw [hset, setSystem, List.getElem?_set_ne hj]
          exact hS
  · have hleads := perform_leads (fun on command hcommand => hc ⟨on, command, hcommand⟩) watched s
    refine ⟨S, systems_of_touches hleads hS, ?_⟩
    have hne : ∀ on command, c ≠ Command.toSystem on command := fun on command hcommand =>
      hc ⟨on, command, hcommand⟩
    rw [created_of_ne hne, newStates_of_ne hne, List.append_nil, List.append_nil]
    exact h

/-- Any commands keep the books of a system. -/
theorem run_books (watched : Bool) (cs : List Command) (hS : s.systems[i]? = some S)
    (h : S.Books ids calls) :
    ∃ S', (run watched cs s).2.systems[i]? = some S' ∧
      S'.Books (ids ++ statesCreated watched i cs s) (calls ++ arcsCreated watched i cs s) := by
  induction cs generalizing s S ids calls with
  | nil =>
    refine ⟨S, hS, ?_⟩
    rw [statesCreated, arcsCreated, List.append_nil, List.append_nil]
    exact h
  | cons c cs ih =>
    obtain ⟨S', hS', h'⟩ := step_books watched c hS h
    rw [run, statesCreated, arcsCreated, ← List.append_assoc, ← List.append_assoc]
    exact ih hS' h'

/-- A system stays in its place and grows. -/
theorem Later.system (h : s.Later s') (hS : s.systems[i]? = some S) :
    ∃ S', s'.systems[i]? = some S' ∧ S.Grows S' := by
  induction h with
  | refl => exact ⟨S, hS, .refl⟩
  | @tail t _ _ hstep ih =>
    obtain ⟨T, hT, hgrows⟩ := ih
    obtain ⟨watched, c, rfl⟩ := hstep
    rcases perform_cases watched c t with hleads | ⟨j, T₀, T', hT₀, hgrows', hstate⟩
    · exact ⟨T, systems_of_touches hleads hT, hgrows⟩
    · have hafter : (step watched c t).2 = t.setSystem j T' := hstate
      rw [hafter]
      by_cases hj : j = i
      · subst hj
        obtain rfl : T = T₀ := Option.some.inj (hT.symm.trans hT₀)
        exact ⟨T', systems_setSystem hT, hgrows.trans hgrows'⟩
      · refine ⟨T, ?_, hgrows⟩
        rw [setSystem, List.getElem?_set_ne hj]
        exact hT

end Session

/-! ## Accounts -/

namespace System

variable {S S' : System} {ids : List Value} {calls : List (Arc Value)}

/-- What the lists of a system say of each other and of the states and arcs that were created. Arcs are
compared by the keys of their endpoints. -/
structure Accounts (S : System) (ids : List Value) (calls : List (Arc Value)) : Prop where
  states_eq : S.written.states = ids
  states_nodup : (S.written.states.map Value.key).Nodup
  arcs_nodup : (S.arcs.map (Arc.map Value.key)).Nodup
  mem_arcs : ∀ a, a ∈ S.arcs.map (Arc.map Value.key) ↔ a ∈ calls.map (Arc.map Value.key)
  endpoints : ∀ a ∈ S.arcs, S.Has a.source ∧ S.Has a.target
  postsets : ∃ posts, S.written.states.mapM S.postset? = .ok posts ∧ S.arcs = posts.flatten
  preset : ∀ v, S.Has v → ∃ arcs, S.preset? v = .ok arcs ∧
    (arcs.map (Arc.map Value.key)).Nodup ∧
    ∀ a, a ∈ arcs.map (Arc.map Value.key) ↔
      a ∈ S.arcs.map (Arc.map Value.key) ∧ a.target = v.key
  alphabet_eq : S.alphabet = distinct (calls.map Arc.label)
  alphabet_nodup : S.alphabet.Nodup
  mem_alphabet : ∀ e, e ∈ S.alphabet ↔ ∃ a ∈ S.arcs, a.label = e
  initial : ∀ v, S.initial? = .ok v → S.Has v

/-- The lists of `S'` go on where those of `S` end. -/
structure Extends (S S' : System) : Prop where
  states : S.written.states <+: S'.written.states
  arcs : ∀ a ∈ S.arcs.map (Arc.map Value.key), a ∈ S'.arcs.map (Arc.map Value.key)
  alphabet : S.alphabet <+: S'.alphabet
  initial : ∀ v, S.initial? = .ok v → ∃ v', S'.initial? = .ok v'

theorem mem_map_key_arcs (hS : S.lts.Valid) {a : Arc Key} :
    a ∈ S.arcs.map (Arc.map Value.key) ↔ a ∈ S.lts.arcs := by
  rw [map_key_arcs]
  exact Lts.mem_grouped hS.closed

theorem preset?_of_has {v : Value} (hv : S.Has v) : S.preset? v = .ok (S.presetOf v) := by
  simp [preset?, require, hv, bind, Except.bind, pure, Except.pure]

theorem postset?_of_has {v : Value} (hv : S.Has v) : S.postset? v = .ok (S.postsetOf v) := by
  simp [postset?, require, hv, bind, Except.bind, pure, Except.pure]

theorem Books.alphabet_eq (h : S.Books ids calls) :
    S.alphabet = distinct (calls.map Arc.label) := by
  have hlabels : (calls.map (Arc.map Value.key)).map Arc.label = calls.map Arc.label := by
    rw [List.map_map]
    rfl
  rw [alphabet_eq_lts, Lts.alphabet, h.arcs_eq, distinct_map_distinct, hlabels]

theorem Books.accounts (h : S.Books ids calls) : S.Accounts ids calls where
  states_eq := h.states_eq
  states_nodup := h.valid.nodup_states
  arcs_nodup := by
    rw [map_key_arcs]
    exact Lts.nodup_grouped h.valid
  mem_arcs := fun a => by rw [mem_map_key_arcs h.valid, h.arcs_eq, mem_distinct]
  endpoints := fun a ha => h.valid.closed _ ((mem_map_key_arcs h.valid).1 (List.mem_map_of_mem ha))
  postsets := by
    refine ⟨_, mapM_eq_map fun v hv => postset?_of_has (List.mem_map_of_mem hv), ?_⟩
    rw [arcs, List.flatMap_def]
  preset := fun v hv => by
    refine ⟨_, preset?_of_has hv, ?_, fun a => ?_⟩
    · rw [map_key_presetOf]
      exact Lts.nodup_preset h.valid v.key
    · rw [map_key_presetOf, Lts.mem_preset, mem_map_key_arcs h.valid]
  alphabet_eq := h.alphabet_eq
  alphabet_nodup := S.nodup_alphabet
  mem_alphabet := fun e => by
    rw [mem_alphabet]
    constructor
    · rintro ⟨a, ha, rfl⟩
      obtain ⟨b, hb, rfl⟩ := List.mem_map.1 ((mem_map_key_arcs h.valid).2 ha)
      exact ⟨b, hb, rfl⟩
    · rintro ⟨a, ha, rfl⟩
      exact ⟨_, (mem_map_key_arcs h.valid).1 (List.mem_map_of_mem ha), rfl⟩
  initial := fun v hv => initial_mem h.valid hv

theorem Change.states_prefix (h : S.Change S') : S.written.states <+: S'.written.states := by
  cases h with
  | state _ _ => exact List.prefix_append _ _
  | arc _ _ _ =>
    rw [states_addArc]
  | start _ => exact List.prefix_rfl

theorem Change.initial_isSome (h : S.Change S') (hi : S.written.initial.isSome) :
    S'.written.initial.isSome := by
  cases h with
  | state _ _ => exact hi
  | arc _ _ _ =>
    unfold addArc
    split <;> exact hi
  | start _ => rfl

theorem Grows.states_prefix (h : S.Grows S') : S.written.states <+: S'.written.states := by
  induction h with
  | refl => exact List.prefix_rfl
  | tail _ hstep ih => exact ih.trans hstep.states_prefix

theorem Grows.initial_isSome (h : S.Grows S') (hi : S.written.initial.isSome) :
    S'.written.initial.isSome := by
  induction h with
  | refl => exact hi
  | tail _ hstep ih => exact hstep.initial_isSome ih

theorem exists_initial_iff : (∃ v, S.initial? = .ok v) ↔ S.written.initial.isSome := by
  unfold initial?
  cases S.written.initial <;> simp

theorem Grows.extends (h : S.Grows S') (hS : S.lts.Valid) : S.Extends S' where
  states := h.states_prefix
  arcs := fun a ha =>
    (mem_map_key_arcs (h.valid hS)).2 (h.arcs_subset ((mem_map_key_arcs hS).1 ha))
  alphabet := by
    obtain ⟨more, hmore⟩ := h.written_arcs
    rw [S.alphabet_eq, S'.alphabet_eq, hmore, List.map_append]
    exact distinct_prefix_append _ _
  initial := fun v hv => exists_initial_iff.2 (h.initial_isSome (exists_initial_iff.1 ⟨v, hv⟩))

end System

/-- A new system keeps accounts of the states and arcs that are created in it, whatever is done in the
session, and its lists only ever go on. -/
theorem Session.system_keeps_accounts (watched : Bool) (s : Session) (name : String) (slot : Keep)
    (cs : List Command) :
    let i := s.systems.length
    let s₀ := (step watched (.newSystem name slot) s).2
    ∃ S, (run watched cs s₀).2.systems[i]? = some S ∧
      S.Accounts (statesCreated watched i cs s₀) (arcsCreated watched i cs s₀) ∧
      ∀ s', (run watched cs s₀).2.Later s' → ∃ S', s'.systems[i]? = some S' ∧ S.Extends S' := by
  intro i s₀
  have hnew : s₀.systems[i]? = some { name } := by
    cases slot <;> exact List.getElem?_concat_length
  obtain ⟨S, hS, hbooks⟩ := run_books watched cs hnew (System.books_new name)
  refine ⟨S, hS, hbooks.accounts, fun s' hlater => ?_⟩
  obtain ⟨S', hS', hgrows⟩ := hlater.system hS
  exact ⟨S', hS', hgrows.extends hbooks.valid⟩

end RegionCalculus
