import RegionCalculus.Proofs.Slots
import RegionCalculus.Proofs.Steadiness

/-!
# The checks of a new region

The lists of weights and the marking that a new region is given can be wrong in several ways at once.
They are checked in a fixed order, and the first check that finds something says what is wrong. The
kinds of all entries come before their signs, so that an entry of the second list that is no integer is
found before a negative one of the first.

* `FirstAt p l i v`: the first member of `l` with `p` is `v`, at index `i`.
* `Check`: what a check finds, for given values; `regionChecks`: the checks of a new region, in order.
* `FirstFinding checks f`: what the first check finds that finds something.
* `Makes x checks`: a computation makes checks in turn; `Makes.bind`: one after the other.
* `Region.makes_read?`: a region is read by making its checks.
* `Region.Acceptable`: what no check has anything to say about; `Region.exists_read?`: it is taken over.
* `Session.new_region_outcome`: what becomes of a new region in a session.
-/

namespace RegionCalculus
set_option autoImplicit false

/-! ## Checks -/

namespace Value

def IsInteger (v : Value) : Prop := ∃ k : Int, v = .integer k

def IsNegative (v : Value) : Prop := ∃ k : Int, k < 0 ∧ v = .integer k

/-- An integer that is not negative. -/
def IsNatural (v : Value) : Prop := ∃ k : Int, 0 ≤ k ∧ v = .integer k

end Value

/-- The first member of `l` with `p` is `v`, at index `i`. -/
def FirstAt (p : Value → Prop) (l : List Value) (i : Nat) (v : Value) : Prop :=
  ∃ before after, l = before ++ v :: after ∧ before.length = i ∧ p v ∧ ∀ w ∈ before, ¬ p w

/-- A check of given values, by what it finds. -/
abbrev Check : Type := Fault → Prop

namespace Check

/-- Every entry is an integer. -/
def entries (side : Side) (given : List Value) : Check := fun f =>
  ∃ i v, FirstAt (fun v => ¬ v.IsInteger) given i v ∧ f = .notInteger (.weight side) v

/-- There are as many entries as events. -/
def number (side : Side) (events : Nat) (given : List Value) : Check := fun f =>
  given.length ≠ events ∧ f = .weightCount side given.length events

/-- No entry is negative. -/
def signs (side : Side) (given : List Value) : Check := fun f =>
  ∃ i k, FirstAt Value.IsNegative given i (.integer k) ∧ f = .negativeWeight side k i

/-- A marking that is given is an integer. -/
def markingKind (marking : Value) : Check := fun f =>
  marking ≠ .null ∧ ¬ marking.IsInteger ∧ f = .notInteger .initialMarking marking

/-- A marking that is given is not negative. -/
def markingSign (marking : Value) : Check := fun f =>
  ∃ k, k < 0 ∧ marking = .integer k ∧ f = .negativeMarking k

end Check

/-- The checks of a new region, in order. -/
def regionChecks (events : Nat) (backward forward : List Value) (marking : Value) : List Check :=
  [.entries .backward backward, .number .backward events backward,
    .entries .forward forward, .number .forward events forward,
    .signs .backward backward, .signs .forward forward,
    .markingKind marking, .markingSign marking]

/-- What the first check finds that finds something. -/
inductive FirstFinding : List Check → Fault → Prop
  | here {c : Check} {cs : List Check} {f : Fault} : c f → FirstFinding (c :: cs) f
  | later {c : Check} {cs : List Check} {f : Fault} :
      (∀ g, ¬ c g) → FirstFinding cs f → FirstFinding (c :: cs) f

section Checks

variable {α β : Type} {c : Check} {cs ds : List Check} {f : Fault}

theorem not_firstFinding_nil : ¬ FirstFinding [] f := nofun

theorem firstFinding_cons : FirstFinding (c :: cs) f ↔ c f ∨ (∀ g, ¬ c g) ∧ FirstFinding cs f := by
  constructor
  · intro h
    cases h with
    | here hc => exact .inl hc
    | later hnone hcs => exact .inr ⟨hnone, hcs⟩
  · rintro (hc | ⟨hnone, hcs⟩)
    · exact .here hc
    · exact .later hnone hcs

/-- Further checks count only if the first ones have nothing to say. -/
theorem firstFinding_append : FirstFinding (cs ++ ds) f ↔
    FirstFinding cs f ∨ (∀ g, ¬ FirstFinding cs g) ∧ FirstFinding ds f := by
  induction cs with
  | nil => simp [not_firstFinding_nil]
  | cons c cs ih =>
    simp only [List.cons_append, firstFinding_cons, ih, not_or, not_and, forall_and]
    constructor
    · rintro (hc | ⟨hnone, hcs | ⟨hquiet, hds⟩⟩)
      · exact .inl (.inl hc)
      · exact .inl (.inr ⟨hnone, hcs⟩)
      · exact .inr ⟨⟨hnone, fun g _ => hquiet g⟩, hds⟩
    · rintro ((hc | ⟨hnone, hcs⟩) | ⟨⟨hnone, hquiet⟩, hds⟩)
      · exact .inl hc
      · exact .inr ⟨hnone, .inl hcs⟩
      · exact .inr ⟨hnone, .inr ⟨fun g => hquiet g hnone, hds⟩⟩

/-- A computation makes checks in turn: it fails just as the first of them that finds something. -/
def Makes (x : Except Fault α) (cs : List Check) : Prop := ∀ f, x = .error f ↔ FirstFinding cs f

theorem Makes.single {x : Except Fault α} (h : ∀ f, x = .error f ↔ c f) : Makes x [c] := by
  intro f
  rw [h f, firstFinding_cons]
  simp [not_firstFinding_nil]

theorem makes_ok (a : α) : Makes (.ok a : Except Fault α) [] := by
  intro f
  simp [not_firstFinding_nil]

/-- The checks of the first part come first. Those of the second part may rely on what it answers. -/
theorem Makes.bind {x : Except Fault α} {k : α → Except Fault β} (hx : Makes x cs)
    (hk : ∀ a, x = .ok a → Makes (k a) ds) : Makes (x >>= k) (cs ++ ds) := by
  intro f
  rw [firstFinding_append]
  cases hanswer : x with
  | error e =>
    have he : FirstFinding cs e := (hx e).1 hanswer
    constructor
    · intro h
      obtain rfl : e = f := Except.error.inj h
      exact .inl he
    · rintro (hcs | ⟨hnone, _⟩)
      · obtain rfl : e = f := Except.error.inj (hanswer.symm.trans ((hx f).2 hcs))
        rfl
      · exact absurd he (hnone e)
  | ok a =>
    have hnone : ∀ g, ¬ FirstFinding cs g := by
      intro g hg
      rw [← hx g, hanswer] at hg
      cases hg
    have hrest : (.ok a >>= k : Except Fault β) = .error f ↔ FirstFinding ds f := hk a hanswer f
    simpa [hnone] using hrest

end Checks

/-! ## The checks of the weights -/

section Weights

variable {side : Side} {events i : Nat} {given backward forward : List Value} {f : Fault}

theorem Value.errorOf?_integer? {what : Quantity} {v : Value} :
    errorOf? (v.integer? what) = some f ↔ ¬ v.IsInteger ∧ f = .notInteger what v := by
  cases v <;> simp [integer?, IsInteger, eq_comm]

theorem makes_mapM_integer? (side : Side) (given : List Value) :
    Makes (given.mapM (Value.integer? (.weight side))) [.entries side given] := by
  refine .single fun f => ?_
  have hquiet : ∀ v : Value, errorOf? (v.integer? (.weight side)) = none ↔ v.IsInteger := by
    intro v
    rw [errorOf?_eq_none]
    simp only [Value.integer?_eq_ok_iff, Value.IsInteger]
  rw [← errorOf?_eq_some, errorOf?_mapM fun _ _ => rfl, List.findSome?_eq_some_iff]
  simp only [Value.errorOf?_integer?, hquiet, Check.entries, FirstAt, not_not]
  constructor
  · rintro ⟨before, v, after, hgiven, ⟨hv, hf⟩, hbefore⟩
    exact ⟨before.length, v, ⟨before, after, hgiven, rfl, hv, hbefore⟩, hf⟩
  · rintro ⟨_, v, ⟨before, after, hgiven, _, hv, hbefore⟩, hf⟩
    exact ⟨before, v, after, hgiven, ⟨hv, hf⟩, hbefore⟩

/-- The kinds of the entries are checked before their number. -/
theorem makes_readWeights (side : Side) (events : Nat) (given : List Value) :
    Makes (readWeights side events given) [.entries side given, .number side events given] := by
  refine (makes_mapM_integer? side given).bind fun weights hweights => .single fun f => ?_
  obtain rfl := mapM_integer?_eq_ok_iff.1 hweights
  rw [Check.number, List.length_map]
  by_cases hlength : weights.length = events
  · rw [if_pos hlength]
    simp [hlength, pure, Except.pure]
  · rw [if_neg hlength]
    simp [hlength, throw, throwThe, MonadExceptOf.throw, eq_comm]

theorem Weights.makes_read? (events : Nat) (backward forward : List Value) :
    Makes (read? events backward forward)
      [.entries .backward backward, .number .backward events backward,
        .entries .forward forward, .number .forward events forward] :=
  (makes_readWeights .backward events backward).bind fun b _ =>
    (makes_readWeights .forward events forward).bind fun f _ => makes_ok (⟨b, f⟩ : Weights)

/-! ## The checks of the signs -/

theorem checkSigns_negative {before after : List Int} {k : Int} (hk : k < 0)
    (hbefore : ∀ w ∈ before, 0 ≤ w) : checkSigns side i (before ++ k :: after) =
      .error (.negativeWeight side k (i + before.length)) := by
  induction before generalizing i with
  | nil => exact if_pos hk
  | cons w before ih =>
    obtain ⟨hw, hrest⟩ := List.forall_mem_cons.1 hbefore
    have hpass : ¬ w < 0 := by omega
    rw [List.cons_append, checkSigns, if_neg hpass, ih hrest, List.length_cons]
    congr 2
    omega

theorem exists_of_checkSigns {l : List Int} (h : checkSigns side i l = .error f) :
    ∃ before k after, l = before ++ k :: after ∧ (∀ w ∈ before, 0 ≤ w) ∧ k < 0 ∧
      f = .negativeWeight side k (i + before.length) := by
  induction l generalizing i with
  | nil => cases h
  | cons w l ih =>
    unfold checkSigns at h
    split at h
    · rename_i hw
      exact ⟨[], w, l, rfl, by simp, hw, (Except.error.inj h).symm⟩
    · rename_i hw
      obtain ⟨before, k, after, rfl, hbefore, hk, hf⟩ := ih h
      refine ⟨w :: before, k, after, rfl, List.forall_mem_cons.2 ⟨by omega, hbefore⟩, hk, ?_⟩
      rw [hf, List.length_cons]
      congr 1
      omega

theorem Value.isNegative_integer {k : Int} : (Value.integer k).IsNegative ↔ k < 0 := by
  simp [IsNegative]

theorem firstAt_isNegative_iff {l : List Int} {k : Int} :
    FirstAt Value.IsNegative (l.map .integer) i (.integer k) ↔
      ∃ before after, l = before ++ k :: after ∧ before.length = i ∧ k < 0 ∧
        ∀ w ∈ before, 0 ≤ w := by
  constructor
  · rintro ⟨before', after', hl, hi, hk, hbefore⟩
    obtain ⟨before, rest, rfl, rfl, hrest⟩ := List.map_eq_append_iff.1 hl
    obtain ⟨k', after, rfl, hhead, rfl⟩ := List.map_eq_cons_iff.1 hrest
    obtain rfl : k' = k := Value.integer.inj hhead
    rw [List.length_map] at hi
    refine ⟨before, after, rfl, hi, Value.isNegative_integer.1 hk, fun w hw => ?_⟩
    by_contra hneg
    exact hbefore _ (List.mem_map_of_mem hw) (Value.isNegative_integer.2 (by omega))
  · rintro ⟨before, after, rfl, rfl, hk, hbefore⟩
    refine ⟨before.map .integer, after.map .integer, ?_, ?_, ?_, ?_⟩
    · rw [List.map_append, List.map_cons]
    · rw [List.length_map]
    · exact Value.isNegative_integer.2 hk
    · refine List.forall_mem_map.2 fun w hw hnegative => ?_
      have hle := hbefore w hw
      have hlt := Value.isNegative_integer.1 hnegative
      omega

theorem makes_checkSigns (side : Side) (l : List Int) :
    Makes (checkSigns side 0 l) [.signs side (l.map .integer)] := by
  refine .single fun f => ?_
  simp only [Check.signs, firstAt_isNegative_iff]
  constructor
  · intro h
    obtain ⟨before, k, after, hl, hbefore, hk, hf⟩ := exists_of_checkSigns h
    rw [Nat.zero_add] at hf
    exact ⟨before.length, k, ⟨before, after, hl, rfl, hk, hbefore⟩, hf⟩
  · rintro ⟨_, k, ⟨before, after, rfl, rfl, hk, hbefore⟩, rfl⟩
    rw [checkSigns_negative hk hbefore, Nat.zero_add]

theorem Weights.makes_checkSigns (w : Weights) :
    Makes w.checkSigns
      [.signs .backward (w.backward.map .integer), .signs .forward (w.forward.map .integer)] :=
  (RegionCalculus.makes_checkSigns .backward w.backward).bind fun _ _ =>
    RegionCalculus.makes_checkSigns .forward w.forward

end Weights

/-! ## The checks of the marking -/

namespace Region

variable {marking : Value} {m : Option Int}

/-- The value that writes a marking; `null` if none is given. -/
def markingValue (m : Option Int) : Value := m.elim .null .integer

theorem readMarking_eq_ok_iff : readMarking marking = .ok m ↔ marking = markingValue m := by
  cases marking <;> cases m <;> simp [readMarking, markingValue, Value.integer?, Except.map]

theorem makes_readMarking (marking : Value) :
    Makes (readMarking marking) [.markingKind marking] := by
  refine .single fun f => ?_
  cases marking <;>
    simp [readMarking, Check.markingKind, Value.integer?, Except.map, Value.IsInteger, eq_comm]

theorem makes_checkMarking (m : Option Int) :
    Makes (checkMarking m) [.markingSign (markingValue m)] := by
  refine .single fun f => ?_
  cases m with
  | none => simp [checkMarking, Check.markingSign, markingValue]
  | some k =>
    by_cases hk : k < 0 <;> simp [checkMarking, Check.markingSign, markingValue, hk, eq_comm]

/-! ## The checks of a region -/

variable {utility : UtilityId} {events : Nat} {backward forward : List Value} {R : Region}

/-- The values that are given show in the region that is made. -/
theorem read?_eq_ok (h : read? utility events backward forward marking = .ok R) :
    backward = R.weights.backward.map .integer ∧ forward = R.weights.forward.map .integer ∧
      marking = markingValue R.given := by
  obtain ⟨w, hw, h⟩ := except_bind_eq_ok.1 h
  obtain ⟨_, _, h⟩ := except_bind_eq_ok.1 h
  obtain ⟨m, hm, h⟩ := except_bind_eq_ok.1 h
  obtain ⟨_, _, h⟩ := except_bind_eq_ok.1 h
  obtain rfl := Except.ok.inj h
  obtain ⟨hb, hf, _⟩ := Weights.read?_eq_ok_iff.1 hw
  exact ⟨hb, hf, readMarking_eq_ok_iff.1 hm⟩

/-- A region is read by making its checks, in their order. -/
theorem makes_read? (utility : UtilityId) (events : Nat) (backward forward : List Value)
    (marking : Value) : Makes (read? utility events backward forward marking)
      (regionChecks events backward forward marking) := by
  refine (Weights.makes_read? events backward forward).bind fun w hw => ?_
  -- the signs are checked on what was read, and that is what was given
  obtain ⟨rfl, rfl, _⟩ := Weights.read?_eq_ok_iff.1 hw
  refine w.makes_checkSigns.bind fun _ _ => (makes_readMarking marking).bind fun m hm => ?_
  obtain rfl := readMarking_eq_ok_iff.1 hm
  exact (makes_checkMarking m).bind fun _ _ => makes_ok _

/-- Both lists have one entry per event, all of them integers that are not negative, and so is the
marking, if one is given. -/
structure Acceptable (events : Nat) (backward forward : List Value) (marking : Value) : Prop where
  backward_length : backward.length = events
  forward_length : forward.length = events
  backward_natural : ∀ v ∈ backward, v.IsNatural
  forward_natural : ∀ v ∈ forward, v.IsNatural
  marking_natural : marking = .null ∨ marking.IsNatural

theorem exists_integers {given : List Value} (h : ∀ v ∈ given, v.IsNatural) :
    ∃ l : List Int, given = l.map .integer ∧ ∀ k ∈ l, 0 ≤ k := by
  induction given with
  | nil => exact ⟨[], rfl, by simp⟩
  | cons v given ih =>
    obtain ⟨⟨k, hk, rfl⟩, hrest⟩ := List.forall_mem_cons.1 h
    obtain ⟨l, rfl, hl⟩ := ih hrest
    exact ⟨k :: l, rfl, List.forall_mem_cons.2 ⟨hk, hl⟩⟩

/-- What is acceptable is taken over. -/
theorem exists_read? (h : Acceptable events backward forward marking) (utility : UtilityId) :
    ∃ R, read? utility events backward forward marking = .ok R := by
  obtain ⟨b, rfl, hb⟩ := exists_integers h.backward_natural
  obtain ⟨f, rfl, hf⟩ := exists_integers h.forward_natural
  have hsized : Weights.Sized events ⟨b, f⟩ := by
    have hblength := h.backward_length
    have hflength := h.forward_length
    rw [List.length_map] at hblength hflength
    exact ⟨hblength, hflength⟩
  cases h.marking_natural with
  | inl hnull =>
    subst hnull
    exact ⟨_, ofWeights?_eq hsized ⟨hb, hf⟩ (m := none) nofun⟩
  | inr hnatural =>
    obtain ⟨k, hk, rfl⟩ := hnatural
    have hmarking : ∀ n, some k = some n → 0 ≤ n := by
      rintro n ⟨⟩
      exact hk
    exact ⟨_, ofWeights?_eq hsized ⟨hb, hf⟩ hmarking⟩

/-- Nothing else is taken over. -/
theorem acceptable_of_read? (h : read? utility events backward forward marking = .ok R) :
    Acceptable events backward forward marking := by
  obtain ⟨_, hfresh⟩ := fresh_of_ok h
  obtain ⟨rfl, rfl, rfl⟩ := read?_eq_ok h
  refine ⟨?_, ?_, ?_, ?_, ?_⟩
  · rw [List.length_map, hfresh.backward_length]
  · rw [List.length_map, hfresh.forward_length]
  · exact List.forall_mem_map.2 fun k hk => ⟨k, hfresh.signs.1 k hk, rfl⟩
  · exact List.forall_mem_map.2 fun k hk => ⟨k, hfresh.signs.2 k hk, rfl⟩
  · cases hm : R.given with
    | none => exact .inl rfl
    | some k => exact .inr ⟨k, hfresh.given_nonneg k hm, rfl⟩

end Region

/-! ## New regions in a session -/

namespace Session

variable {s : Session} {name : SlotName} {p : PlacedUtility} {backward forward : List Value}
  {marking : Value} {slot : Keep}

theorem step_newRegion (hp : s.utilityIn? name = some p) (watched : Bool)
    (backward forward : List Value) (marking : Value) (slot : Keep) :
    (step watched (.newRegion name backward forward marking slot) s).1.answer =
        (Region.read? p.id p.utility.size backward forward marking).map (.text ·.shown) ∧
      (step watched (.newRegion name backward forward marking slot) s).2 =
        match Region.read? p.id p.utility.size backward forward marking with
        | .error _ => s
        | .ok R => (s.withRegion R).place slot (.region s.regions.length) := by
  have hperform : perform watched (.newRegion name backward forward marking slot) s =
      (Attempt.ofExcept (Region.read? p.id p.utility.size backward forward marking) >>=
        fun R => produce R slot) s := lookup_bind hp _
  rw [step, hperform]
  cases Region.read? p.id p.utility.size backward forward marking with
  | error f => exact ⟨rfl, rfl⟩
  | ok R => exact ⟨rfl, rfl⟩

/-- What becomes of a new region. It is refused for what the first check finds that finds something, and
nothing changes then. What is acceptable is taken over: the region is the next one, and has the values
that were given. -/
structure Checked (s : Session) (p : PlacedUtility) (backward forward : List Value) (marking : Value)
    (slot : Keep) (outcome : Result × Session) : Prop where
  made_iff : (∃ a, outcome.1.answer = .ok a) ↔
    Region.Acceptable p.utility.size backward forward marking
  refused_iff : ∀ f, outcome.1.answer = .error f ↔
    FirstFinding (regionChecks p.utility.size backward forward marking) f
  refused : ∀ f, outcome.1.answer = .error f → outcome.2 = s
  made : Region.Acceptable p.utility.size backward forward marking → ∃ R : Region,
    backward = R.weights.backward.map .integer ∧ forward = R.weights.forward.map .integer ∧
    marking = Region.markingValue R.given ∧ R.derived = none ∧ R.markings = [] ∧
    outcome.1.answer = .ok (.text R.shown) ∧
    outcome.2 = (s.withRegion R).place slot (.region s.regions.length) ∧
    outcome.2.region? s.regions.length = some ⟨s.regions.length, ⟨R, p.utility⟩, p.system⟩

/-- A new region for a utility, with any values for its weights and its marking. -/
theorem new_region_outcome (hp : s.utilityIn? name = some p) (watched : Bool)
    (backward forward : List Value) (marking : Value) (slot : Keep) :
    Checked s p backward forward marking slot
      (step watched (.newRegion name backward forward marking slot) s) := by
  obtain ⟨hanswer, hstate⟩ := step_newRegion hp watched backward forward marking slot
  obtain ⟨_, hplaced⟩ := utilityIn?_eq_some_iff.1 hp
  refine ⟨?_, fun f => ?_, fun f hf => ?_, fun hacceptable => ?_⟩
  · rw [hanswer, exists_map_eq_ok_iff]
    exact ⟨fun ⟨_, hR⟩ => Region.acceptable_of_read? hR, fun h => Region.exists_read? h p.id⟩
  · rw [hanswer, map_eq_error_iff]
    exact Region.makes_read? p.id p.utility.size backward forward marking f
  · rw [hanswer, map_eq_error_iff] at hf
    rw [hstate, hf]
  · obtain ⟨R, hR⟩ := Region.exists_read? hacceptable p.id
    obtain ⟨hb, hf, hm⟩ := Region.read?_eq_ok hR
    obtain ⟨hutility, hfresh⟩ := Region.fresh_of_ok hR
    rw [hR] at hanswer hstate
    refine ⟨R, hb, hf, hm, hfresh.derived, hfresh.markings, hanswer, hstate, ?_⟩
    rw [hstate, region?_place]
    exact region?_withRegion_new hplaced hutility

/-- The ring's utility has three events. Of what is wrong here, the word among the forward weights is
found first: signs and the marking come after the kinds of all entries. -/
theorem new_region_outcome_ring :
    ringSession.utilityIn? "utility" = some ⟨0, ringRegion.holding.utility, ringSystem⟩ ∧
      Checked ringSession ⟨0, ringRegion.holding.utility, ringSystem⟩
        [.integer 0, .integer (-1), .integer 2] [.integer 1, .text "x", .integer 0, .integer 0]
        (.truth true) (some "new")
        (step false (.newRegion "utility" [.integer 0, .integer (-1), .integer 2]
          [.integer 1, .text "x", .integer 0, .integer 0] (.truth true) (some "new")) ringSession) := by
  have hp : ringSession.utilityIn? "utility" =
      some ⟨0, ringRegion.holding.utility, ringSystem⟩ := rfl
  exact ⟨hp, new_region_outcome hp false _ _ _ _⟩

example : (step false (.newRegion "utility" [.integer 0, .integer (-1), .integer 2]
    [.integer 1, .text "x", .integer 0, .integer 0] (.truth true) none) ringSession).1.answer =
      .error (.notInteger (.weight .forward) (.text "x")) := rfl

end Session

end RegionCalculus
