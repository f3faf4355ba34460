import RegionCalculus.Attempt
import RegionCalculus.Lts.Search

/-!
# Systems as written

A labelled transition system whose states are plain values. Equality of states is equality of keys;
answers show each state in a written form.

* `System`: a name, the states and arcs as they were written, a counter for new ids, and the labels in
  the order of their first arc.
* `System.lts S`: the system over keys, which decides everything but the written forms.
* `createState`, `createStates`, `createArc`, `setInitial`: the changes, as attempts.
* `System.ofArcs`: a system from triples of source, label and target.

The written form of a state is the one in which it was created. The target of an arc is written as in
the first arc between its endpoints, and so is a source that is reached backwards from a target.
-/

namespace RegionCalculus
set_option autoImplicit false

theorem labels_of_no_arcs : [] = distinct (({} : Lts Value).arcs.map Arc.label) := rfl

/-- A labelled transition system over plain values. New ids are numbered from `counter` on. The labels
are kept in a list of their own, which goes on whenever an arc brings a new one. -/
structure System where
  name : String := ""
  written : Lts Value := {}
  counter : Nat := 0
  alphabet : List String := []
  alphabet_eq : alphabet = distinct (written.arcs.map Arc.label) := by exact labels_of_no_arcs

namespace System

def lts (S : System) : Lts Key := S.written.map Value.key

@[simp] theorem lts_states (S : System) : S.lts.states = S.written.states.map Value.key := rfl
@[simp] theorem lts_arcs (S : System) : S.lts.arcs = S.written.arcs.map (Arc.map Value.key) := rfl
@[simp] theorem lts_initial (S : System) : S.lts.initial = S.written.initial.map Value.key := rfl

/-- The labels that are kept are those of the arcs. -/
theorem alphabet_eq_lts (S : System) : S.alphabet = S.lts.alphabet := by
  rw [S.alphabet_eq, Lts.alphabet, lts_arcs, List.map_map]
  rfl

theorem nodup_alphabet (S : System) : S.alphabet.Nodup := S.alphabet_eq ▸ nodup_distinct _

theorem mem_alphabet {S : System} {e : String} :
    e ∈ S.alphabet ↔ ∃ a ∈ S.lts.arcs, a.label = e := by
  rw [alphabet_eq_lts, Lts.mem_alphabet]

def size (S : System) : Nat := S.written.states.length

/-- The value is a state. -/
def Has (S : System) (v : Value) : Prop := v.key ∈ S.lts.states

instance (S : System) (v : Value) : Decidable (S.Has v) := inferInstanceAs (Decidable (_ ∈ _))

/-- Refuses a value that is no state. -/
def require (S : System) (v : Value) : Except Fault Unit :=
  if S.Has v then .ok () else .error (.unknownState v)

/-- The initial state as it was set. -/
def initial? (S : System) : Except Fault Value :=
  match S.written.initial with
  | some v => .ok v
  | none => .error .noInitialState

/-! ## Written forms -/

/-- The first arc between two states, as written. -/
def firstArc? (S : System) (u v : Key) : Option (Arc Value) :=
  S.written.arcs.find? fun a => a.source.key = u ∧ a.target.key = v

/-- The written form of the target of an arc of the system. -/
def targetForm (S : System) (a : Arc Key) : Value :=
  ((S.firstArc? a.source a.target).map Arc.target).getD .null

/-- The written form of the source of an arc of the system, seen from its target. -/
def sourceForm (S : System) (a : Arc Key) : Value :=
  ((S.firstArc? a.source a.target).map Arc.source).getD .null

/-- The arcs out of a state that is written `v`. -/
def postsetOf (S : System) (v : Value) : List (Arc Value) :=
  (S.lts.postset v.key).map fun a => ⟨v, S.targetForm a, a.label⟩

/-- The arcs into a state that is written `v`. -/
def presetOf (S : System) (v : Value) : List (Arc Value) :=
  (S.lts.preset v.key).map fun a => ⟨S.sourceForm a, v, a.label⟩

/-! ## Queries -/

def arcs (S : System) : List (Arc Value) := S.written.states.flatMap S.postsetOf

def postset? (S : System) (v : Value) : Except Fault (List (Arc Value)) := do
  S.require v
  return S.postsetOf v

def preset? (S : System) (v : Value) : Except Fault (List (Arc Value)) := do
  S.require v
  return S.presetOf v

/-- The states that can be reached from the initial one, in the order of the states. -/
def reachable? (S : System) : Except Fault (List Value) := do
  let init ← S.initial?
  let found := S.lts.reachable init.key
  return S.written.states.filter (·.key ∈ found)

/-- The name and the numbers of states, arcs and labels. -/
def shown (S : System) : String :=
  let states := S.size
  let arcs := S.written.arcs.length
  let events := S.alphabet.length
  s!"TransitionSystem(name={Text.quoted S.name}, states={states}, arcs={arcs}, events={events})"

/-! ## Changes -/

def addState (S : System) (v : Value) : System :=
  { S with written := { S.written with states := S.written.states ++ [v] } }

/-- The system with one more arc, unless it has that arc. -/
def addArc (S : System) (a : Arc Value) : System :=
  if a.map Value.key ∈ S.lts.arcs then S
  else
    { S with
      written := { S.written with arcs := S.written.arcs ++ [a] }
      alphabet := withMember S.alphabet a.label
      alphabet_eq := by
        rw [S.alphabet_eq, withMember_distinct, List.map_append, List.map_singleton] }

def startAt (S : System) (v : Value) : System :=
  { S with written := { S.written with initial := some v } }

def numbered (n : Nat) : Value := .text s!"s{n}"

/-- The first number from `counter` on whose id is no state. One of `size + 1` numbers is free. -/
def freeNumber (S : System) : Nat :=
  ((List.range' S.counter (S.size + 1)).find? fun n => ¬ S.Has (numbered n)).getD S.counter

/-- Adds a state; `null` asks for a new id. -/
def createState (v : Value) : Attempt System Value := fun S =>
  match v with
  | .null =>
    let n := S.freeNumber
    ⟨.ok (numbered n), { S.addState (numbered n) with counter := n }, []⟩
  | v =>
    if S.Has v then ⟨.error (.stateExists v), S, []⟩
    else ⟨.ok v, S.addState v, []⟩

/-- Adds states in turn, up to the first that is refused. -/
def createStates (vs : List Value) : Attempt System (List Value) := vs.mapM createState

/-- The label that a value is: a text that is not empty. -/
def label? : Value → Except Fault String
  | .text s => if s = "" then .error (.labelInvalid (.text s)) else .ok s
  | v => .error (.labelInvalid v)

/-- The arc that three values name, if its endpoints are states and its label is valid. -/
def checkArc (S : System) (source target label : Value) : Except Fault (Arc Value) := do
  S.require source
  S.require target
  let l ← label? label
  return ⟨source, target, l⟩

/-- Adds an arc. Adding an arc that exists changes nothing. -/
def createArc (source target label : Value) : Attempt System (Arc Value) := fun S =>
  match S.checkArc source target label with
  | .ok a => ⟨.ok a, S.addArc a, []⟩
  | .error f => ⟨.error f, S, []⟩

def setInitial (v : Value) : Attempt System Unit := fun S =>
  match S.require v with
  | .ok () => ⟨.ok (), S.startAt v, []⟩
  | .error f => ⟨.error f, S, []⟩

/-- Adds a state unless it exists. -/
def ensureState (v : Value) : Attempt System Unit := do
  let S ← Attempt.state
  if S.Has v then return () else do
    let _ ← createState v

/-- Adds an arc with its endpoints; the triple names source, label and target. -/
def ensureArc (triple : Value × Value × Value) : Attempt System Unit := do
  ensureState triple.1
  ensureState triple.2.2
  let _ ← createArc triple.1 triple.2.2 triple.2.1

/-- Adds the initial state, the arcs in turn with their endpoints, and sets the initial state. -/
def build (triples : List (Value × Value × Value)) (initial : Value) : Attempt System Unit := do
  let _ ← createState initial
  triples.forM ensureArc
  setInitial initial

/-- The system with the given arcs and initial state. -/
def ofArcs (name : String) (triples : List (Value × Value × Value)) (initial : Value) :
    Except Fault System :=
  let o := build triples initial { name }
  match o.answer with
  | .ok () => .ok o.state
  | .error f => .error f

/-! ## The changes over keys -/

@[simp] theorem lts_addState (S : System) (v : Value) :
    (S.addState v).lts = { S.lts with states := S.lts.states ++ [v.key] } := by
  simp [addState, lts, Lts.map]

theorem lts_addArc (S : System) (a : Arc Value) :
    (S.addArc a).lts =
      if a.map Value.key ∈ S.lts.arcs then S.lts
      else { S.lts with arcs := S.lts.arcs ++ [a.map Value.key] } := by
  unfold addArc
  split <;> simp [lts, Lts.map]

@[simp] theorem lts_startAt (S : System) (v : Value) :
    (S.startAt v).lts = { S.lts with initial := some v.key } := by
  simp [startAt, lts, Lts.map]

/-! ## The written forms have the right keys -/

/-- An arc of the system is found again by its endpoints. -/
theorem exists_firstArc {S : System} {a : Arc Key} (h : a ∈ S.lts.arcs) :
    ∃ b, S.firstArc? a.source a.target = some b ∧ b.source.key = a.source ∧
      b.target.key = a.target := by
  obtain ⟨c, hc, rfl⟩ := List.mem_map.1 h
  cases hf : S.firstArc? (c.map Value.key).source (c.map Value.key).target with
  | none =>
    have := List.find?_eq_none.1 hf c hc
    simp at this
  | some b =>
    have := List.find?_some hf
    simp only [decide_eq_true_eq] at this
    exact ⟨b, rfl, this⟩

theorem key_targetForm {S : System} {a : Arc Key} (h : a ∈ S.lts.arcs) :
    (S.targetForm a).key = a.target := by
  obtain ⟨b, hb, _, ht⟩ := exists_firstArc h
  simp [targetForm, hb, ht]

theorem key_sourceForm {S : System} {a : Arc Key} (h : a ∈ S.lts.arcs) :
    (S.sourceForm a).key = a.source := by
  obtain ⟨b, hb, hs, _⟩ := exists_firstArc h
  simp [sourceForm, hb, hs]

@[simp] theorem map_key_postsetOf (S : System) (v : Value) :
    (S.postsetOf v).map (Arc.map Value.key) = S.lts.postset v.key := by
  rw [postsetOf, List.map_map, List.map_congr_left (g := id), List.map_id]
  intro a ha
  obtain ⟨ha, hs⟩ := Lts.mem_postset.1 ha
  simp [Arc.map, key_targetForm ha, ← hs]

@[simp] theorem map_key_presetOf (S : System) (v : Value) :
    (S.presetOf v).map (Arc.map Value.key) = S.lts.preset v.key := by
  rw [presetOf, List.map_map, List.map_congr_left (g := id), List.map_id]
  intro a ha
  obtain ⟨ha, ht⟩ := Lts.mem_preset.1 ha
  simp [Arc.map, key_sourceForm ha, ← ht]

/-- The states that can be reached are those that the search over keys finds. -/
theorem map_key_reachable {S : System} {init : Value} (h : S.initial? = .ok init) :
    S.reachable?.map (·.map Value.key) = .ok (S.lts.reachable init.key) := by
  simp only [reachable?, h, bind, Except.bind, pure, Except.pure, Except.map, Except.ok.injEq]
  calc (S.written.states.filter (·.key ∈ S.lts.reachable init.key)).map Value.key
      = S.lts.states.filter (· ∈ S.lts.reachable init.key) := by
        rw [lts_states, List.filter_map]
        rfl
    _ = S.lts.reachable init.key := by
        refine List.filter_congr fun s hs => ?_
        simp [hs, -lts_states]

@[simp] theorem map_key_arcs (S : System) : S.arcs.map (Arc.map Value.key) = S.lts.grouped := by
  simp [arcs, Lts.grouped, List.map_flatMap, List.flatMap_map]

end System

/-- An arc as text: its source, its label and its target. -/
def Arc.shown (a : Arc Value) : String := s!"{a.source.plain}--{a.label}->{a.target.plain}"

end RegionCalculus
