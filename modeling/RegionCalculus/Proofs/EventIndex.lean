import RegionCalculus.Proofs.WellFormed

/-!
# The index of the events

A utility is made with a list of events. The list is looked through for a label that occurs twice, and
only then for labels that it misses. An accepted list is never changed again, so that labels and
positions in the list stand for each other as long as the utility is used, however its system grows.

* `FirstRepetition l e`: the first label of `l` that has occurred before is `e`;
  `firstRepeated_nil_iff`: it is what the search finds.
* `eventOrder?_eq_error_iff`: why a list of events is refused.
* `RegionUtility.eventIndex?_eq_ok_iff`, `eventIndex?_eq_error_iff`: what is looked up, and what is not
  found.
* `Side.weightOf`, `Weights.of`: the command for a weight of an event, and the weights that it reads.
* `Session.Indexed s u events`: the utility `u` stands on `events` as its index.
* `Session.new_utility_indexes`: what becomes of a new utility, at once and later.
-/

namespace RegionCalculus
set_option autoImplicit false

/-! ## Lists of events -/

section Lists

variable {alphabet order seen l : List String} {e : String} {f : Fault}

/-- The first label that has occurred before is `e`. -/
def FirstRepetition (l : List String) (e : String) : Prop :=
  ∃ before after, l = before ++ e :: after ∧ before.Nodup ∧ e ∈ before

/-- The search stops at the first label that it has seen. -/
theorem firstRepeated_append {before after : List String} (hnodup : before.Nodup)
    (hnew : ∀ x ∈ before, x ∉ seen) (he : e ∈ seen ∨ e ∈ before) :
    firstRepeated seen (before ++ e :: after) = some e := by
  induction before generalizing seen with
  | nil =>
    have hseen : e ∈ seen := he.resolve_right List.not_mem_nil
    exact if_pos hseen
  | cons x before ih =>
    obtain ⟨hx, hnew⟩ := List.forall_mem_cons.1 hnew
    obtain ⟨hhead, hnodup⟩ := List.nodup_cons.1 hnodup
    rw [List.cons_append, firstRepeated, if_neg hx]
    apply ih hnodup
    · intro y hy hmem
      cases List.mem_cons.1 hmem with
      | inl hyx => exact hhead (hyx ▸ hy)
      | inr hseen => exact hnew y hy hseen
    · simp only [List.mem_cons] at he ⊢
      tauto

/-- What comes before the label that the search finds repeats nothing that was seen, nor itself. -/
theorem exists_of_firstRepeated (h : firstRepeated seen l = some e) :
    ∃ before after, l = before ++ e :: after ∧ before.Nodup ∧ (∀ x ∈ before, x ∉ seen) ∧
      (e ∈ seen ∨ e ∈ before) := by
  induction l generalizing seen with
  | nil => cases h
  | cons x l ih =>
    unfold firstRepeated at h
    split at h
    · rename_i hx
      obtain rfl : x = e := Option.some.inj h
      exact ⟨[], l, rfl, List.nodup_nil, by simp, .inl hx⟩
    · rename_i hx
      obtain ⟨before, after, rfl, hnodup, hnew, he⟩ := ih h
      have hhead : x ∉ before := fun hmem => hnew x hmem List.mem_cons_self
      refine ⟨x :: before, after, rfl, List.nodup_cons.2 ⟨hhead, hnodup⟩, ?_, ?_⟩
      · refine List.forall_mem_cons.2 ⟨hx, fun y hy hseen => ?_⟩
        exact hnew y hy (List.mem_cons_of_mem x hseen)
      · simp only [List.mem_cons] at he ⊢
        tauto

theorem firstRepeated_nil_iff : firstRepeated [] l = some e ↔ FirstRepetition l e := by
  constructor
  · intro h
    obtain ⟨before, after, hl, hnodup, _, he⟩ := exists_of_firstRepeated h
    exact ⟨before, after, hl, hnodup, he.resolve_left List.not_mem_nil⟩
  · rintro ⟨before, after, rfl, hnodup, he⟩
    exact firstRepeated_append hnodup (fun x _ => List.not_mem_nil) (.inr he)

theorem not_nodup_of_repetition (h : FirstRepetition l e) : ¬ l.Nodup := by
  intro hnodup
  have hnone := firstRepeated_eq_none_iff.2 ⟨hnodup, fun x _ => List.not_mem_nil⟩
  rw [firstRepeated_nil_iff.2 h] at hnone
  cases hnone

/-- A repetition is found first. Otherwise all labels that are missing are named, in the order of the
alphabet. -/
theorem eventOrder?_eq_error_iff : eventOrder? alphabet (some order) = .error f ↔
    (∃ e, FirstRepetition order e ∧ f = .duplicateEvent e) ∨
      order.Nodup ∧ ¬ alphabet ⊆ order ∧ f = .labelsMissing (alphabet.filter (· ∉ order)) := by
  cases hr : firstRepeated [] order with
  | some e =>
    have he := firstRepeated_nil_iff.1 hr
    rw [eventOrder?_of_repeated alphabet hr, Except.error.injEq]
    constructor
    · rintro rfl
      exact .inl ⟨e, he, rfl⟩
    · rintro (⟨e', he', rfl⟩ | ⟨hnodup, _⟩)
      · rw [firstRepeated_nil_iff.2 he'] at hr
        rw [Option.some.inj hr]
      · exact absurd hnodup (not_nodup_of_repetition he)
  | none =>
    have hnodup := (firstRepeated_eq_none_iff.1 hr).1
    have hquiet : ∀ e, ¬ FirstRepetition order e := fun e he => not_nodup_of_repetition he hnodup
    rw [eventOrder?_of_nodup alphabet hnodup, ← missing_eq_nil_iff]
    by_cases hmissing : alphabet.filter (· ∉ order) = []
    · rw [if_pos hmissing]
      refine ⟨nofun, ?_⟩
      rintro (⟨e, he, _⟩ | ⟨_, hsome, _⟩)
      · exact absurd he (hquiet e)
      · exact absurd hmissing hsome
    · rw [if_neg hmissing, Except.error.injEq]
      constructor
      · intro h
        exact .inr ⟨hnodup, hmissing, h.symm⟩
      · rintro (⟨e, he, _⟩ | ⟨_, _, h⟩)
        · exact absurd he (hquiet e)
        · exact h.symm

/-- In a list without repetitions a label is found where it stands. -/
theorem idxOf?_eq_some_iff_of_nodup {i : Nat} (h : l.Nodup) :
    l.idxOf? e = some i ↔ l[i]? = some e := by
  constructor
  · intro hi
    have he : e ∈ l := by
      by_contra hno
      rw [List.idxOf?_eq_none_iff.2 hno] at hi
      cases hi
    rw [idxOf?_of_mem he, Option.some.injEq] at hi
    rw [← hi]
    exact List.getElem?_idxOf he
  · intro hi
    obtain ⟨hlt, rfl⟩ := List.getElem?_eq_some_iff.1 hi
    rw [idxOf?_of_mem (List.getElem_mem hlt), h.idxOf_getElem i hlt]

end Lists

/-! ## Looking up events -/

namespace RegionUtility

variable {U : RegionUtility} {v : Value} {f : Fault} {i : Nat}

theorem eventIndex?_text_eq_ok_iff {e : String} :
    U.eventIndex? (.text e) = .ok i ↔ U.events.idxOf? e = some i := by
  cases hfound : U.events.idxOf? e <;> simp [eventIndex?, hfound]

/-- Just the labels of the list are found, each where it stands. -/
theorem eventIndex?_eq_ok_iff (h : U.events.Nodup) :
    U.eventIndex? v = .ok i ↔ ∃ e, v = .text e ∧ U.events[i]? = some e := by
  cases v with
  | text e => simp [eventIndex?_text_eq_ok_iff, idxOf?_eq_some_iff_of_nodup h]
  | _ => simp [eventIndex?]

theorem eventIndex?_eq_error_iff : U.eventIndex? v = .error f ↔
    (∀ e ∈ U.events, v ≠ .text e) ∧ f = .unknownEvent v := by
  cases v with
  | text e =>
    have hnone : (∀ e' ∈ U.events, Value.text e ≠ .text e') ↔ U.events.idxOf? e = none := by
      rw [List.idxOf?_eq_none_iff]
      constructor
      · intro h he
        exact h e he rfl
      · intro h e' he' heq
        exact h (Value.text.inj heq ▸ he')
    rw [hnone]
    cases hfound : U.events.idxOf? e <;> simp [eventIndex?, hfound, eq_comm]
  | _ => simp [eventIndex?, eq_comm]

/-- An index that is given is its own. -/
theorem resolve?_integer (h : i < U.size) : U.resolve? (.integer i) = .ok i := by
  have hrange : (0 : Int) ≤ i ∧ (i : Int) < U.size := by omega
  simp [resolve?, Value.integer?, hrange, bind, Except.bind, pure, Except.pure]

end RegionUtility

/-! ## Weights of one event -/

/-- The command for the weight of one event. -/
def Side.weightOf : Side → Value → RegionCommand
  | .backward => .backwardOf
  | .forward => .forwardOf
  | .net => .netOf

def Weights.of (w : Weights) : Side → List Int
  | .backward => w.backward
  | .forward => w.forward
  | .net => w.net

theorem Weights.Sized.length_of {n : Nat} {w : Weights} (h : w.Sized n) (side : Side) :
    (w.of side).length = n := by
  cases side with
  | backward => exact h.backward
  | forward => exact h.forward
  | net => exact h.length_net

namespace Session

open Attempt

variable {s s' : Session} {name : SlotName} {u : UtilityId} {i : SystemId} {S : System}
  {p : PlacedUtility} {q : PlacedRegion} {events : List String}

theorem tellRegion_weightOf (watched : Bool) (q : PlacedRegion) (side : Side) (v : Value)
    (s : Session) : (tellRegion watched q (side.weightOf v) s).answer =
      (q.holding.utility.resolve? v).map fun i =>
        .number ((q.holding.region.weights.of side).getD i 0) := by
  cases side <;> exact answer_bind_pure _ _ _

/-! ## The index of a utility -/

/-- The utility `u` has the list `events` as its index. The index of a label is the position at which it
stands, and nothing else is found. A region of the utility answers one weight for a label and for its
position. -/
structure Indexed (s : Session) (u : UtilityId) (events : List String) : Prop where
  nodup : events.Nodup
  kept : ∃ p, s.utility? u = some p ∧ p.utility.events = events
  size : ∀ on p watched, s.utilityIn? on = some p → p.id = u →
    (step watched (.toUtility on .size) s).1.answer = .ok (.number events.length)
  listed : ∀ on p watched, s.utilityIn? on = some p → p.id = u →
    (step watched (.toUtility on .events) s).1.answer = .ok (.texts events)
  index_iff : ∀ on p watched, s.utilityIn? on = some p → p.id = u → ∀ (e : String) (i : Nat),
    (step watched (.toUtility on (.eventIndex (.text e))) s).1.answer = .ok (.number i) ↔
      events[i]? = some e
  unknown_iff : ∀ on p watched, s.utilityIn? on = some p → p.id = u → ∀ v f,
    (step watched (.toUtility on (.eventIndex v)) s).1.answer = .error f ↔
      (∀ e ∈ events, v ≠ .text e) ∧ f = .unknownEvent v
  weights : ∀ on q watched, s.regionIn? on = some q → q.owner.id = u →
    ∀ (side : Side) (e : String) (i : Nat), events[i]? = some e →
      ∃ k, (q.holding.region.weights.of side)[i]? = some k ∧
        (step watched (.toRegion on (side.weightOf (.text e))) s).1.answer = .ok (.number k) ∧
        (step watched (.toRegion on (side.weightOf (.integer i))) s).1.answer = .ok (.number k)

theorem tellUtility_eventIndex (p : PlacedUtility) (v : Value) (s : Session) :
    (tellUtility p (.eventIndex v) s).answer =
      (p.utility.eventIndex? v).map fun i => .number i :=
  answer_bind_pure _ _ _

theorem eventIndex_answer_iff (h : p.utility.events.Nodup) {e : String} {i : Nat} :
    (tellUtility p (.eventIndex (.text e)) s).answer = .ok (.number i) ↔
      p.utility.events[i]? = some e := by
  have hanswer : (tellUtility p (.eventIndex (.text e)) s).answer = .ok (.number i) ↔
      p.utility.eventIndex? (.text e) = .ok i := by
    rw [tellUtility_eventIndex]
    cases p.utility.eventIndex? (.text e) <;> simp [Except.map]
  rw [hanswer, RegionUtility.eventIndex?_eq_ok_iff h]
  simp

/-- A region answers the weight at a position for the label that stands there, and for the position. -/
theorem tellRegion_weightOf_both (hnodup : q.holding.utility.events.Nodup)
    (hsized : q.holding.region.weights.Sized q.holding.utility.size) (side : Side) {e : String}
    {i : Nat} (hi : q.holding.utility.events[i]? = some e) (watched : Bool) (s : Session) :
    ∃ k, (q.holding.region.weights.of side)[i]? = some k ∧
      (tellRegion watched q (side.weightOf (.text e)) s).answer = .ok (.number k) ∧
      (tellRegion watched q (side.weightOf (.integer i)) s).answer = .ok (.number k) := by
  have hlt : i < q.holding.utility.size := (List.getElem?_eq_some_iff.1 hi).1
  have hlength : i < (q.holding.region.weights.of side).length := by
    rw [hsized.length_of side]
    exact hlt
  have hlabel : q.holding.utility.resolve? (.text e) = .ok i :=
    (RegionUtility.eventIndex?_eq_ok_iff hnodup).2 ⟨e, rfl, hi⟩
  have hposition := RegionUtility.resolve?_integer hlt
  refine ⟨(q.holding.region.weights.of side).getD i 0, ?_, ?_, ?_⟩
  · rw [List.getD_eq_getElem _ 0 hlength, List.getElem?_eq_getElem hlength]
  · rw [tellRegion_weightOf, hlabel]
    rfl
  · rw [tellRegion_weightOf, hposition]
    rfl

/-- A utility without repetitions has its events as its index. -/
theorem indexed_of_utility? (hs : s.WellMade) (hp : s.utility? u = some p)
    (hnodup : p.utility.events.Nodup) : Indexed s u p.utility.events := by
  have hplaced : ∀ on p', s.utilityIn? on = some p' → p'.id = u → p' = p := by
    intro on p' hp' hid
    obtain ⟨_, hfound⟩ := utilityIn?_eq_some_iff.1 hp'
    rw [hid, hp] at hfound
    exact (Option.some.inj hfound).symm
  refine ⟨hnodup, ⟨p, hp, rfl⟩, ?_, ?_, ?_, ?_, ?_⟩
  · intro on p' watched hp' hid
    obtain rfl := hplaced on p' hp' hid
    exact (step_toUtility hp' watched .size).1
  · intro on p' watched hp' hid
    obtain rfl := hplaced on p' hp' hid
    exact (step_toUtility hp' watched .events).1
  · intro on p' watched hp' hid e i
    obtain rfl := hplaced on p' hp' hid
    rw [(step_toUtility hp' watched _).1]
    exact eventIndex_answer_iff hnodup
  · intro on p' watched hp' hid v f
    obtain rfl := hplaced on p' hp' hid
    rw [(step_toUtility hp' watched _).1, tellUtility_eventIndex, map_eq_error_iff]
    exact RegionUtility.eventIndex?_eq_error_iff
  · intro on q watched hq hid side e i hi
    obtain ⟨hutility, _⟩ := owner_eq hp (region?_of_regionIn? hq) hid
    rw [← hutility] at hnodup hi
    have hsized := (hs.regions q.id q (region?_of_regionIn? hq)).sized
    rw [(step_toRegion hq watched _).1, (step_toRegion hq watched _).1]
    exact tellRegion_weightOf_both hnodup hsized side hi watched s

/-! ## New utilities in a session -/

/-- The session with one more utility. -/
def withUtility (s : Session) (U : RegionUtility) : Session :=
  { s with utilities := s.utilities ++ [U] }

theorem step_newUtility (hat : (systemAt name s).answer = .ok (i, S)) (watched : Bool)
    (given : Option (List String)) (slot : Keep) :
    (step watched (.newUtility name given slot) s).1.answer =
        (eventOrder? S.alphabet given).map
          (fun events => .text (RegionUtility.shown { system := i, events } S)) ∧
      (step watched (.newUtility name given slot) s).2 =
        match eventOrder? S.alphabet given with
        | .error _ => s
        | .ok events =>
          (s.withUtility { system := i, events }).place slot (.utility s.utilities.length) := by
  obtain ⟨r, hslot, hr⟩ := lookup_ok hat
  have hsystem : (s.slots.lookup name).bind s.systemOf? = some (i, S) := by
    rw [hslot]
    exact hr
  have hperform : perform watched (.newUtility name given slot) s =
      (Attempt.ofExcept (eventOrder? S.alphabet given) >>= fun events => do
        let u ← addUtility { system := i, events }
        keep slot (.utility u)
        return Answer.text (RegionUtility.shown { system := i, events } S)) s :=
    lookup_bind hsystem _
  rw [step, hperform]
  cases eventOrder? S.alphabet given with
  | error f => exact ⟨rfl, rfl⟩
  | ok events => exact ⟨rfl, rfl⟩

theorem utility?_withUtility {U : RegionUtility} (hS : s.systems[U.system]? = some S) (slot : Keep)
    (r : Ref) : ((s.withUtility U).place slot r).utility? s.utilities.length =
      some ⟨s.utilities.length, U, S⟩ := by
  have hplaced : (s.withUtility U).utility? s.utilities.length = some ⟨s.utilities.length, U, S⟩ :=
    utility?_eq_some_iff.2 ⟨rfl, List.getElem?_concat_length, hS⟩
  cases slot with
  | none => exact hplaced
  | some name => exact hplaced

/-- What becomes of a new utility with the list `events`. It is refused for the first repetition, or else
for all missing labels, and nothing changes then. An accepted list is the index of the next utility, and
stays it whatever is done. -/
structure MakesIndex (s : Session) (i : SystemId) (S : System) (events : List String) (slot : Keep)
    (outcome : Result × Session) : Prop where
  made_iff : (∃ a, outcome.1.answer = .ok a) ↔ events.Nodup ∧ S.alphabet ⊆ events
  refused_iff : ∀ f, outcome.1.answer = .error f ↔
    (∃ e, FirstRepetition events e ∧ f = .duplicateEvent e) ∨
      events.Nodup ∧ ¬ S.alphabet ⊆ events ∧ f = .labelsMissing (S.alphabet.filter (· ∉ events))
  refused : ∀ f, outcome.1.answer = .error f → outcome.2 = s
  made : events.Nodup → S.alphabet ⊆ events →
    outcome.1.answer = .ok (.text (RegionUtility.shown { system := i, events } S)) ∧
      outcome.2 =
        (s.withUtility { system := i, events }).place slot (.utility s.utilities.length)
  indexed : events.Nodup → S.alphabet ⊆ events → ∀ s', outcome.2.Later s' →
    Indexed s' s.utilities.length events

/-- A new utility for a system, with any list of events or with the alphabet. -/
theorem new_utility_indexes (hs : s.Reached) (hat : (systemAt name s).answer = .ok (i, S))
    (watched : Bool) (given : Option (List String)) (slot : Keep) :
    MakesIndex s i S (given.getD S.alphabet) slot
      (step watched (.newUtility name given slot) s) := by
  obtain ⟨hanswer, hstate⟩ := step_newUtility hat watched given slot
  have halphabet : S.alphabet.Nodup := S.nodup_alphabet
  rw [eventOrder?_getD halphabet] at hanswer hstate
  have hmade : (given.getD S.alphabet).Nodup → S.alphabet ⊆ given.getD S.alphabet →
      eventOrder? S.alphabet (some (given.getD S.alphabet)) = .ok (given.getD S.alphabet) :=
    fun hnodup hsub => eventOrder?_eq_ok_iff.2 ⟨rfl, hnodup, hsub⟩
  refine ⟨?_, fun f => ?_, fun f hf => ?_, fun hnodup hsub => ?_, fun hnodup hsub s' hlater => ?_⟩
  · rw [hanswer, exists_map_eq_ok_iff]
    constructor
    · rintro ⟨events, hevents⟩
      exact (eventOrder?_eq_ok_iff.1 hevents).2
    · rintro ⟨hnodup, hsub⟩
      exact ⟨_, hmade hnodup hsub⟩
  · rw [hanswer, map_eq_error_iff]
    exact eventOrder?_eq_error_iff
  · rw [hanswer, map_eq_error_iff] at hf
    rw [hstate, hf]
  · rw [hmade hnodup hsub] at hanswer hstate
    exact ⟨hanswer, hstate⟩
  · have hnew : (step watched (.newUtility name given slot) s).2.utility? s.utilities.length =
        some ⟨s.utilities.length, { system := i, events := given.getD S.alphabet }, S⟩ := by
      rw [hstate, hmade hnodup hsub]
      exact utility?_withUtility (systemAt_ok hat).2 slot _
    have hreached : (step watched (.newUtility name given slot) s).2.Reached := .step watched _ hs
    obtain ⟨p, hp, hbecomes⟩ := hlater.utility? hreached hnew
    have hevents : p.utility.events = given.getD S.alphabet := hbecomes.events
    rw [← hevents] at hnodup ⊢
    exact indexed_of_utility? (hlater.reached hreached).wellMade hp hnodup

/-- A list for the ring that puts a label of no arc among the events. -/
theorem new_utility_indexes_ring :
    ringSession.Reached ∧ (systemAt "lts" ringSession).answer = .ok (0, ringSystem) ∧
      MakesIndex ringSession 0 ringSystem ["c", "z", "b", "a"] (some "reordered")
        (step false (.newUtility "lts" (some ["c", "z", "b", "a"]) (some "reordered"))
          ringSession) := by
  have hs : ringSession.Reached := steady_ringSession.reached
  have hat : (systemAt "lts" ringSession).answer = .ok (0, ringSystem) := rfl
  exact ⟨hs, hat, new_utility_indexes hs hat false (some ["c", "z", "b", "a"]) (some "reordered")⟩

/-- A repetition is told before the label that is missing. -/
example : (step false (.newUtility "lts" (some ["b", "c", "c", "b"]) none) ringSession).1.answer =
    .error (.duplicateEvent "c") := rfl

end Session

end RegionCalculus
