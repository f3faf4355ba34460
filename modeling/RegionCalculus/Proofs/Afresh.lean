import RegionCalculus.Proofs.Slots

/-!
# Answers computed anew

What a session answers if nothing is ever kept: every query computes the spanning tree, the vectors, the
cycle vectors and the markings that it needs from the system as it is.

* `System.lookup?`, `reaching?` and their like: the queries to a utility, as functions of the system
  and the events.
* `Region.markingAt?`, `Builder.finishNormal?`, `Region.purified?`: markings and finished regions.
* `Session.performAfresh c`: carries out one command, and looks at nothing that is kept.
* `Session.runAfresh cs s`: carries out commands in turn; what was kept is forgotten after each.
* `Command.seen s c`: what is compared of the answer to `c` in `s`. Whether a marking is derived shows in
  the text of a region without a given marking, and only there.
* `RegionUtility.InStep.lookupVector_afresh` and its like: a utility in step answers the same.
-/

namespace RegionCalculus
set_option autoImplicit false

/-! ## Queries -/

namespace System

def treeStates? (S : System) : Except Fault (List Value) := S.spanningTree?.map WrittenTree.forms

def otherStates? (S : System) : Except Fault (List Value) :=
  S.spanningTree?.map fun t => S.written.states.filter fun v => v.key ∉ t.tree.states

def lookup? (S : System) (events : List String) (v : Value) :
    Except Fault (Option (List Int)) := do
  S.require v
  let table ← S.vectors? events
  return table.lookup v.key

def reaching? (S : System) (events : List String) (v : Value) : Except Fault (List Int) := do
  match ← S.lookup? events v with
  | some vector => return vector
  | none => .error (.unreachable v)

def parikhRows? (S : System) (events : List String) : Except Fault (List (List Int)) := do
  let table ← S.vectors? events
  let t ← S.spanningTree?
  return t.tree.states.filterMap fun s => table.lookup s

def cycleRows? (S : System) (events : List String) : Except Fault (List (List Int)) :=
  (S.cycleVectors? events).map fun cycles => cycles.map (·.2)

def writtenCycles? (S : System) (events : List String) :
    Except Fault (List (Arc Value × List Int)) := do
  let cycles ← S.cycleVectors? events
  let t ← S.spanningTree?
  return cycles.map fun c => (t.extraForm S c.1, c.2)

def consistent? (S : System) (events : List String) (net : List Int) : Except Fault Bool :=
  (S.cycleVectors? events).map fun cycles => cycleConsistent cycles net

end System

def Region.markingAt? (R : Region) (S : System) (events : List String) (v : Value) :
    Except Fault Int := do
  let vector ← S.reaching? events v
  let start ← R.start? S events
  let effect ← R.evaluate? events.length vector
  return start + effect

def Builder.finishNormal? (B : Builder) (S : System) (events : List String) :
    Except Fault Region := do
  let m ← S.normalMarking? events B.weights.net
  Region.ofWeights? B.utility events.length B.weights (some m)

def Region.purified? (R : Region) (S : System) (events : List String) : Except Fault Region := do
  let B ← Builder.ofNet? R.utility events.length (R.weights.net.map .integer)
  B.finishNormal? S events

def RegionUtility.forget (U : RegionUtility) : RegionUtility :=
  { system := U.system, events := U.events }

def Region.forget (R : Region) : Region :=
  { utility := R.utility, weights := R.weights, given := R.given }

/-! ## Commands -/

namespace Session

def tellUtilityAfresh (p : PlacedUtility) : UtilityCommand → Attempt Session Answer
  | .tree slot => do
    let t ← Attempt.ofExcept p.system.spanningTree?
    keep slot (.treeOf p.id)
    return .text t.shown
  | .reachable => do return .values (← Attempt.ofExcept p.system.treeStates?)
  | .unreachable => do return .values (← Attempt.ofExcept p.system.otherStates?)
  | .lookupVector id => do
    match ← Attempt.ofExcept (p.system.lookup? p.utility.events id) with
    | some v => return .numbers v
    | none => return .nothing
  | .reachingVector id => do
    return .numbers (← Attempt.ofExcept (p.system.reaching? p.utility.events id))
  | .parikhMatrix => do
    return .matrix p.utility.size (← Attempt.ofExcept (p.system.parikhRows? p.utility.events))
  | .cycleMatrix => do
    return .matrix p.utility.size (← Attempt.ofExcept (p.system.cycleRows? p.utility.events))
  | .cycleVectors => do
    return .arcVectors (← Attempt.ofExcept (p.system.writtenCycles? p.utility.events))
  | c => tellUtility p c

/-- The initial marking of a region, computed anew unless it was given. -/
def PlacedRegion.start? (p : PlacedRegion) : Except Fault Int :=
  p.holding.region.start? p.system p.holding.utility.events

def tellRegionAfresh (p : PlacedRegion) : RegionCommand → Attempt Session Answer
  | .isConsistent => do
    return .truth (← Attempt.ofExcept
      (p.system.consistent? p.holding.utility.events p.holding.region.weights.net))
  | .initialMarking => do return .number (← Attempt.ofExcept p.start?)
  | .normalMarking => do
    return .number (← Attempt.ofExcept
      (p.system.normalMarking? p.holding.utility.events p.holding.region.weights.net))
  | .markingOf id => do
    return .number (← Attempt.ofExcept
      (p.holding.region.markingAt? p.system p.holding.utility.events id))
  | .purify slot => do
    let R ← Attempt.ofExcept (p.holding.region.purified? p.system p.holding.utility.events)
    produce R slot
  | .showEvents => do
    let m ← Attempt.ofExcept p.start?
    return .text (p.holding.region.shownEvents p.holding.utility.events m)
  | c => tellRegion false p c

def equalRegions? (p q : PlacedRegion) : Except Fault Bool := do
  if q.id = p.id then return true
  else if q.holding.region.utility = p.holding.region.utility ∧
      q.holding.region.weights = p.holding.region.weights then do
    let m ← q.start?
    let n ← p.start?
    return decide (m = n)
  else return false

def equalAfresh (left right : Operand) : Attempt Session Bool := do
  let a ← operand left
  let b ← operand right
  match a, b with
  | .value v, .value w => return decide (v.key = w.key)
  | .region p, .region q => Attempt.ofExcept (equalRegions? p q)
  | .object r, .object s => return decide (r = s)
  | _, _ => return false

def identityAfresh (name : SlotName) : Attempt Session (UtilityId × Weights × Int) := do
  let p ← regionAt name
  let m ← Attempt.ofExcept p.start?
  return (p.holding.region.utility, p.holding.region.weights, m)

def distinctAfresh (items : List SlotName) : Attempt Session Nat := do
  let found ← items.mapM identityAfresh
  return (RegionCalculus.distinct found).length

/-- The tree of a utility is computed anew whenever it is looked at. -/
def treeOfAfresh? (s : Session) : Ref → Option WrittenTree
  | .treeOf u => (s.utility? u).bind fun p => p.system.spanningTree?.toOption
  | r => s.treeOf? r

def performAfresh : Command → Attempt Session Answer
  | .cycleBasis system (some tree) => do
    let (_, S) ← systemAt system
    let t ← lookup treeOfAfresh? tree
    let cycles ← Attempt.ofExcept (t.cycleBasis? S)
    Attempt.note (.basisFound cycles.length)
    return .cycles cycles
  | .toTree on command => do tellTree (← lookup treeOfAfresh? on) command
  | .toUtility on command => do tellUtilityAfresh (← utilityAt on) command
  | .toRegion on command => do tellRegionAfresh (← regionAt on) command
  | .equal left right => do return .truth (← equalAfresh left right)
  | .distinct items => do return .number (← distinctAfresh items)
  | .toBuilder on (.finishNormal slot) => do
    let p ← builderAt on
    produce (← Attempt.ofExcept (p.builder.finishNormal? p.system p.utility.events)) slot
  | c => perform false c

/-- The same objects, with nothing kept in utilities and regions. -/
def forget (s : Session) : Session :=
  { s with utilities := s.utilities.map RegionUtility.forget, regions := s.regions.map Region.forget }

/-- The answers of a session that forgets after each command what was kept. -/
def runAfresh : List Command → Session → List (Except Fault Answer)
  | [], _ => []
  | c :: cs, s =>
    let o := performAfresh c s
    o.answer :: runAfresh cs o.state.forget

end Session

/-! ## Answers to compare -/

/-- The answer is the text of the region itself, which tells whether its marking is derived by now. -/
def RegionCommand.shows : RegionCommand → Bool
  | .show => true
  | .addScaled _ factor _ =>
    match factor.integer? .factor with
    | .ok k => k == 0
    | .error _ => false
  | _ => false

/-- A text without what follows its last `=`. -/
def Answer.unmarked : Answer → Answer
  | .text shown => .text (.ofList (shown.toList.reverse.dropWhile (· ≠ '=')).reverse)
  | a => a

/-- The region in a slot has no given marking, but at most a derived one. -/
def Session.leavesMarking (s : Session) (on : SlotName) : Bool :=
  (s.regionIn? on).any fun p => p.holding.region.given.isNone

theorem Session.leavesMarking_of_regionIn? {s : Session} {on : SlotName} {p : PlacedRegion}
    (h : s.regionIn? on = some p) : s.leavesMarking on = p.holding.region.given.isNone := by
  rw [leavesMarking, h, Option.any_some]

/-- What is compared of an answer in a session: all of it, but of a region that is shown and has no
given marking not the marking. -/
def Command.seen (s : Session) : Command → Answer → Answer
  | .toRegion on c => fun a => if c.shows && s.leavesMarking on then a.unmarked else a
  | _ => id

/-- What is compared of answers to commands that are carried out in turn. -/
def Command.allSeen : List Command → Session → List (Except Fault Answer) →
    List (Except Fault Answer)
  | c :: cs, s, answer :: answers =>
    answer.map (c.seen s) :: allSeen cs (Session.step false c s).2 answers
  | _, _, _ => []

theorem Answer.unmarked_append (shown : String) {marking : String}
    (h : '=' ∉ marking.toList) : (Answer.text (shown ++ "=" ++ marking)).unmarked =
      .text (shown ++ "=") := by
  have hmarking : ∀ c ∈ marking.toList.reverse, decide (c ≠ '=') = true := by
    intro c hc
    have hne : c ≠ '=' := fun heq => h (heq ▸ List.mem_reverse.1 hc)
    simpa using hne
  simp only [Answer.unmarked, String.toList_append, List.reverse_append,
    List.dropWhile_append_of_pos hmarking]
  simp

theorem eq_notMem_toString (m : Int) : '=' ∉ (toString m).toList := by
  have hdigits : ∀ n : Nat, '=' ∉ (Nat.repr n).toList := by
    intro n hn
    rw [Nat.repr, String.toList_ofList] at hn
    exact absurd (Nat.isDigit_of_mem_toDigits (by decide) (by decide) hn) (by decide)
  rw [Int.toString_eq_repr]
  cases m with
  | ofNat n => exact hdigits n
  | negSucc n =>
    rw [Int.repr, String.toList_append, List.mem_append, not_or]
    exact ⟨by decide, hdigits _⟩

namespace Region

/-- How a region is shown up to its marking. -/
def shownWeights (R : Region) : String :=
  let b := Value.bracketed (R.weights.backward.map toString)
  let f := Value.bracketed (R.weights.forward.map toString)
  s!"Region(backward={b}, forward={f}, initial_marking"

theorem shown_eq (R : Region) : R.shown = R.shownWeights ++ "=" ++
    ((match R.marking? with
      | some m => toString m
      | none => "lazy") ++ ")") := by
  have hsign : ", initial_marking=" = ", initial_marking" ++ "=" := rfl
  unfold shown shownWeights
  simp only [String.append_assoc, hsign]
  rfl

theorem unmarked_shown (R : Region) :
    (Answer.text R.shown).unmarked = .text (R.shownWeights ++ "=") := by
  rw [shown_eq]
  refine Answer.unmarked_append _ ?_
  rw [String.toList_append, List.mem_append, not_or]
  refine ⟨?_, by decide⟩
  cases R.marking? with
  | none => decide
  | some m => exact eq_notMem_toString m

theorem shown_congr {R R' : Region} (hweights : R.weights = R'.weights)
    (hmarking : R.marking? = R'.marking?) : R.shown = R'.shown := by
  unfold shown
  rw [hweights, hmarking]

theorem unmarked_shown_congr {R R' : Region} (h : R.weights = R'.weights) :
    (Answer.text R.shown).unmarked = (Answer.text R'.shown).unmarked := by
  have hweights : R.shownWeights = R'.shownWeights := by
    unfold shownWeights
    rw [h]
  have hcut := congrArg (fun shown => Answer.text (shown ++ "=")) hweights
  exact (R.unmarked_shown.trans hcut).trans R'.unmarked_shown.symm

end Region

/-! ## Queries in step -/

theorem Attempt.answer_bind_eq {σ α β : Type} {x : Attempt σ α} {k : α → Attempt σ β} {s : σ}
    {e : Except Fault α} {f : α → Except Fault β} (hx : (x s).answer = e)
    (hk : ∀ a, e = .ok a → (k a (x s).state).answer = f a) :
    ((x >>= k) s).answer = e >>= f := by
  cases e with
  | error g => exact answer_bind_of_error hx
  | ok a => exact (answer_bind_of_ok hx).trans (hk a rfl)

namespace RegionUtility.InStep

variable {S : System} {U : RegionUtility}

open Attempt

theorem reachableStates_afresh (hU : InStep S U) :
    (reachableStates S U).answer = S.treeStates? := by
  rw [reachableStates, answer_bind_pure, hU.spanningTree_answer, System.treeStates?]

theorem unreachableStates_afresh (hU : InStep S U) :
    (unreachableStates S U).answer = S.otherStates? := by
  rw [unreachableStates, answer_bind_pure, hU.spanningTree_answer, System.otherStates?]

theorem lookupVector_afresh (hU : InStep S U) (v : Value) :
    (lookupVector S v U).answer = S.lookup? U.events v :=
  answer_bind_eq rfl fun _ _ => answer_bind_eq hU.parikhVectors_answer fun _ _ => rfl

theorem reachingVector_afresh (hU : InStep S U) (v : Value) :
    (reachingVector S v U).answer = S.reaching? U.events v :=
  answer_bind_eq (hU.lookupVector_afresh v) fun found _ => by cases found <;> rfl

theorem parikhRows_afresh (hU : InStep S U) :
    (parikhRows S U).answer = S.parikhRows? U.events :=
  answer_bind_eq hU.parikhVectors_answer fun _ _ =>
    answer_bind_eq (hU.fills (parikhVectors_leads S U)).spanningTree_answer fun _ _ => rfl

theorem cycleRows_afresh (hU : InStep S U) :
    (cycleRows S U).answer = S.cycleRows? U.events := by
  rw [cycleRows, answer_bind_pure, hU.cycleVectors_answer, System.cycleRows?]

theorem writtenCycleVectors_afresh (hU : InStep S U) :
    (writtenCycleVectors S U).answer = S.writtenCycles? U.events :=
  answer_bind_eq hU.cycleVectors_answer fun _ _ =>
    answer_bind_eq (hU.fills (cycleVectors_leads S U)).spanningTree_answer fun _ _ => rfl

theorem finishNormal_afresh (hU : InStep S U) (B : Builder) :
    (B.finishNormal S false U).answer = B.finishNormal? S U.events := by
  rw [Builder.finishNormal, provided_false, pure_bind]
  refine answer_bind_eq (hU.normalMarkingFor_answer _) fun m _ => ?_
  have hsize := fills_size (normalMarkingFor_leads S B.weights.net U)
  rw [bind_of_ok (state_apply _), hsize]
  rfl

theorem purified_afresh (hU : InStep S U) (R : Region) :
    (R.purified S false U).answer = R.purified? S U.events := by
  rw [Region.purified, bind_of_ok (state_apply U)]
  exact answer_bind_eq rfl fun B _ => hU.finishNormal_afresh B

end RegionUtility.InStep

namespace System

variable {S : System} {events : List String} {table : List (Key × List Int)} {k : Key}
  {vector : List Int}

/-- A vector belongs to a state, and has one entry per event. -/
theorem vector_of_lookup (hS : S.lts.Valid) (he : EventOrder S.lts events)
    (htable : S.vectors? events = .ok table) (hlookup : table.lookup k = some vector) :
    k ∈ S.lts.states ∧ vector.length = events.length := by
  obtain ⟨t, ht, _⟩ := except_bind_eq_ok.1 htable
  obtain ⟨init, hi, _⟩ := except_bind_eq_ok.1 ht
  rw [vectors?_eq hS hi he] at htable
  rw [← Except.ok.inj htable, Lts.vectorTable, lookup_map_pair] at hlookup
  split at hlookup
  · rename_i hmem
    rw [← Option.some.inj hlookup]
    exact ⟨((Lts.mem_states_spanningTree hS).1 hmem).mem_states hS (initial_mem hS hi),
      Tree.length_vector _ _ _⟩
  · cases hlookup

theorem reaching?_of_lookup {v : Value} (hv : S.Has v) (htable : S.vectors? events = .ok table)
    (hlookup : table.lookup v.key = some vector) : S.reaching? events v = .ok vector := by
  have hrequire : S.require v = .ok () := if_pos hv
  have hfound : S.lookup? events v = .ok (some vector) := by
    rw [lookup?, hrequire, htable]
    exact congrArg Except.ok hlookup
  rw [reaching?, hfound]
  rfl

end System

namespace Region

variable {S : System} {R : Region} {U : RegionUtility}

open Attempt

/-- A marking that is kept is the one that would be computed. -/
theorem InStep.markingAt?_of_kept (hR : InStep S U.events R) (hU : U.InStep S) (hS : S.lts.Valid)
    {v : Value} {m : Int} (hm : R.markings.lookup v.key = some m) :
    R.markingAt? S U.events v = .ok m := by
  obtain ⟨start, table, vector, hstart, htable, hlookup, rfl⟩ := hR.markings _ _ hm
  obtain ⟨hmem, hlength⟩ := System.vector_of_lookup hS hU.order htable hlookup
  have hevaluate : R.evaluate? U.events.length vector = .ok (R.evaluate vector) := if_pos hlength
  rw [markingAt?, System.reaching?_of_lookup hmem htable hlookup, hstart]
  simp only [hevaluate, bind, Except.bind, pure, Except.pure]

theorem InStep.markingOf_afresh (hR : InStep S U.events R) (hU : U.InStep S) (hS : S.lts.Valid)
    (v : Value) : (markingOf S v ⟨R, U⟩).answer = R.markingAt? S U.events v := by
  cases hm : R.markings.lookup v.key with
  | some m => rw [markingOf_of_some hm, hR.markingAt?_of_kept hU hS hm]
  | none =>
    have hfills := RegionUtility.reachingVector_leads S v U
    have hevents := (RegionUtility.fills_frame hfills).2
    rw [markingOf_of_none hm]
    refine answer_bind_eq (hU.reachingVector_afresh v) fun vector _ => ?_
    refine answer_bind_eq ?_ fun start _ => answer_bind_eq rfl fun _ _ => rfl
    have hstart := initialMarking_answer (hU.fills hfills) (R := R) (hevents ▸ hR)
    rw [hevents] at hstart
    exact hstart

end Region

end RegionCalculus
