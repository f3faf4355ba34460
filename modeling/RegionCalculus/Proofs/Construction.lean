import RegionCalculus.Proofs.Caches
import RegionCalculus.Proofs.WeightLoops
import RegionCalculus.Region.Builder

/-!
# New utilities and regions

What the checks of a new utility and of a new region leave.

* `errorOf? x`: the error of a computation that fails; `errorOf?_mapM`: a loop fails as its first element
  that fails.
* `eventOrder?_of_repeated`, `eventOrder?_of_nodup`: how a list of events is checked;
  `eventOrder?_eq_ok_iff`, `eventOrder_of_ok`: an accepted list of events names every label and repeats
  none.
* `Region.Fresh events R`: one weight of each side per event, no sign below zero, nothing kept yet.
* `Region.fresh_of_ok`: every accepted region is fresh.
* `Region.ofWeights?_eq`, `Builder.ofNet?_integers`: weights and markings that pass the checks are taken
  over as they are.
* `Region.purified_eq`: a region is purified by a builder with its net weights.
-/

namespace RegionCalculus
set_option autoImplicit false

theorem except_bind_eq_ok {ε α β : Type} {x : Except ε α} {k : α → Except ε β} {b : β} :
    x >>= k = .ok b ↔ ∃ a, x = .ok a ∧ k a = .ok b := by
  cases x <;> simp [bind, Except.bind]

/-! ## Errors -/

section Errors

variable {ε ε' α β : Type}

def errorOf? : Except ε α → Option ε
  | .error e => some e
  | .ok _ => none

@[simp] theorem errorOf?_error (e : ε) : errorOf? (.error e : Except ε α) = some e := rfl

@[simp] theorem errorOf?_ok (a : α) : errorOf? (.ok a : Except ε α) = none := rfl

theorem errorOf?_eq_some {x : Except ε α} {e : ε} : errorOf? x = some e ↔ x = .error e := by
  cases x <;> simp

theorem errorOf?_eq_none {x : Except ε α} : errorOf? x = none ↔ ∃ a, x = .ok a := by
  cases x <;> simp

@[simp] theorem errorOf?_map (x : Except ε α) (f : α → β) : errorOf? (x.map f) = errorOf? x := by
  cases x <;> rfl

@[simp] theorem errorOf?_mapError (x : Except ε α) (f : ε → ε') :
    errorOf? (x.mapError f) = (errorOf? x).map f := by
  cases x <;> rfl

theorem map_eq_error_iff {x : Except ε α} {f : α → β} {e : ε} :
    x.map f = .error e ↔ x = .error e := by
  rw [← errorOf?_eq_some, errorOf?_map, errorOf?_eq_some]

theorem exists_map_eq_ok_iff {x : Except ε α} {f : α → β} :
    (∃ b, x.map f = .ok b) ↔ ∃ a, x = .ok a := by
  rw [← errorOf?_eq_none, errorOf?_map, errorOf?_eq_none]

/-- A loop fails as its first element that fails. -/
theorem errorOf?_mapM {f : α → Except ε β} {gap : α → Option ε} {l : List α}
    (h : ∀ a ∈ l, errorOf? (f a) = gap a) : errorOf? (l.mapM f) = l.findSome? gap := by
  induction l with
  | nil => rfl
  | cons a l ih =>
    rw [List.mapM_cons, List.findSome?_cons, ← h a List.mem_cons_self,
      ← ih fun b hb => h b (List.mem_cons_of_mem _ hb)]
    cases f a with
    | error e => rfl
    | ok b => cases l.mapM f <;> rfl

end Errors

/-! ## Events -/

theorem firstRepeated_eq_none_iff {seen l : List String} :
    firstRepeated seen l = none ↔ l.Nodup ∧ ∀ e ∈ l, e ∉ seen := by
  induction l generalizing seen with
  | nil => simp [firstRepeated]
  | cons e l ih =>
    by_cases he : e ∈ seen
    · simp [firstRepeated, he]
    · simp only [firstRepeated, if_neg he, ih, List.nodup_cons]
      constructor
      · rintro ⟨hnodup, hnew⟩
        have hhead : e ∉ l := fun hmem => hnew e hmem List.mem_cons_self
        refine ⟨⟨hhead, hnodup⟩, List.forall_mem_cons.2 ⟨he, fun x hx hmem => ?_⟩⟩
        exact hnew x hx (List.mem_cons_of_mem e hmem)
      · rintro ⟨⟨hhead, hnodup⟩, hnew⟩
        refine ⟨hnodup, fun x hx hmem => ?_⟩
        cases List.mem_cons.1 hmem with
        | inl hxe => exact hhead (hxe ▸ hx)
        | inr hseen => exact hnew x (List.mem_cons_of_mem e hx) hseen

section EventOrder

variable {alphabet order events : List String}

theorem eventOrder?_of_repeated (alphabet : List String) {e : String}
    (h : firstRepeated [] order = some e) :
    eventOrder? alphabet (some order) = .error (.duplicateEvent e) := by
  simp only [eventOrder?, h]

theorem eventOrder?_of_nodup (alphabet : List String) (h : order.Nodup) :
    eventOrder? alphabet (some order) =
      if alphabet.filter (· ∉ order) = [] then .ok order
      else .error (.labelsMissing (alphabet.filter (· ∉ order))) := by
  have hnone : firstRepeated [] order = none := firstRepeated_eq_none_iff.2 ⟨h, by simp⟩
  simp only [eventOrder?, hnone]

theorem missing_eq_nil_iff : alphabet.filter (· ∉ order) = [] ↔ alphabet ⊆ order := by
  simp [List.filter_eq_nil_iff, List.subset_def]

/-- Without a list, the events are those of the alphabet. -/
theorem eventOrder?_getD (h : alphabet.Nodup) (given : Option (List String)) :
    eventOrder? alphabet given = eventOrder? alphabet (some (given.getD alphabet)) := by
  cases given with
  | some order => rfl
  | none =>
    rw [Option.getD_none, eventOrder?_of_nodup alphabet h,
      if_pos (missing_eq_nil_iff.2 (List.Subset.refl _))]
    rfl

theorem eventOrder?_eq_ok_iff : eventOrder? alphabet (some order) = .ok events ↔
    events = order ∧ order.Nodup ∧ alphabet ⊆ order := by
  by_cases hnodup : order.Nodup
  · rw [eventOrder?_of_nodup alphabet hnodup, ← missing_eq_nil_iff]
    by_cases hmissing : alphabet.filter (· ∉ order) = []
    · rw [if_pos hmissing, Except.ok.injEq]
      exact ⟨fun h => ⟨h.symm, hnodup, hmissing⟩, fun h => h.1.symm⟩
    · rw [if_neg hmissing]
      exact ⟨nofun, fun h => absurd h.2.2 hmissing⟩
  · obtain ⟨e, he⟩ : ∃ e, firstRepeated [] order = some e := by
      apply Option.ne_none_iff_exists'.1
      intro hnone
      exact hnodup (firstRepeated_eq_none_iff.1 hnone).1
    rw [eventOrder?_of_repeated alphabet he]
    simp [hnodup]

theorem eventOrder_of_ok {S : System} {given : Option (List String)}
    (h : eventOrder? S.alphabet given = .ok events) : EventOrder S.lts events := by
  rw [eventOrder?_getD S.nodup_alphabet] at h
  obtain ⟨rfl, hnodup, hsub⟩ := eventOrder?_eq_ok_iff.1 h
  exact ⟨hnodup, fun a ha => hsub (System.mem_alphabet.2 ⟨a, ha, rfl⟩)⟩

end EventOrder

/-! ## Weights -/

theorem Value.integer?_eq_ok_iff {what : Quantity} {v : Value} {k : Int} :
    v.integer? what = .ok k ↔ v = .integer k := by
  cases v <;> simp [integer?]

/-- Just lists of integers are read. -/
theorem mapM_integer?_eq_ok_iff {what : Quantity} {given : List Value} {l : List Int} :
    given.mapM (Value.integer? what) = .ok l ↔ given = l.map .integer := by
  induction given generalizing l with
  | nil => cases l <;> simp [pure, Except.pure]
  | cons v given ih =>
    rw [List.mapM_cons, except_bind_eq_ok]
    simp only [Value.integer?_eq_ok_iff, except_bind_eq_ok, ih]
    cases l <;> simp [pure, Except.pure]

theorem readWeights_eq_ok_iff {side : Side} {events : Nat} {given : List Value} {l : List Int} :
    readWeights side events given = .ok l ↔ given = l.map .integer ∧ l.length = events := by
  rw [readWeights, except_bind_eq_ok]
  simp only [mapM_integer?_eq_ok_iff]
  constructor
  · rintro ⟨ws, hws, h⟩
    split at h
    · rename_i hlen
      obtain rfl : ws = l := Except.ok.inj h
      exact ⟨hws, hlen⟩
    · cases h
  · rintro ⟨hl, hlen⟩
    exact ⟨l, hl, if_pos hlen⟩

theorem readWeights_length {side : Side} {events : Nat} {given : List Value} {weights : List Int}
    (h : readWeights side events given = .ok weights) : weights.length = events :=
  (readWeights_eq_ok_iff.1 h).2

theorem readWeights_integers (side : Side) {events : Nat} {l : List Int} (h : l.length = events) :
    readWeights side events (l.map .integer) = .ok l :=
  readWeights_eq_ok_iff.2 ⟨rfl, h⟩

theorem checkSigns_ok_iff {side : Side} {i : Nat} {l : List Int} :
    checkSigns side i l = .ok () ↔ ∀ w ∈ l, 0 ≤ w := by
  induction l generalizing i with
  | nil => simp [checkSigns]
  | cons w l ih =>
    unfold checkSigns
    split
    · simp only [reduceCtorEq, false_iff, List.forall_mem_cons, not_and]
      omega
    · rw [ih, List.forall_mem_cons]
      exact ⟨fun h => ⟨by omega, h⟩, fun h => h.2⟩

namespace Weights

theorem read?_eq_ok_iff {events : Nat} {backward forward : List Value} {w : Weights} :
    read? events backward forward = .ok w ↔
      backward = w.backward.map .integer ∧ forward = w.forward.map .integer ∧ w.Sized events := by
  rw [read?, except_bind_eq_ok]
  simp only [readWeights_eq_ok_iff, except_bind_eq_ok, pure, Except.pure, Except.ok.injEq]
  constructor
  · rintro ⟨b, ⟨hb, hblength⟩, f, ⟨hf, hflength⟩, rfl⟩
    exact ⟨hb, hf, hblength, hflength⟩
  · rintro ⟨hb, hf, hblength, hflength⟩
    exact ⟨w.backward, ⟨hb, hblength⟩, w.forward, ⟨hf, hflength⟩, rfl⟩

theorem read?_sized {events : Nat} {backward forward : List Value} {w : Weights}
    (h : read? events backward forward = .ok w) : w.Sized events :=
  (read?_eq_ok_iff.1 h).2.2

theorem checkSigns_ok_iff {w : Weights} :
    w.checkSigns = .ok () ↔ (∀ x ∈ w.backward, 0 ≤ x) ∧ ∀ x ∈ w.forward, 0 ≤ x := by
  constructor
  · intro h
    obtain ⟨_, hb, hf⟩ := except_bind_eq_ok.1 h
    exact ⟨RegionCalculus.checkSigns_ok_iff.1 hb, RegionCalculus.checkSigns_ok_iff.1 hf⟩
  · rintro ⟨hb, hf⟩
    exact except_bind_eq_ok.2
      ⟨(), RegionCalculus.checkSigns_ok_iff.2 hb, RegionCalculus.checkSigns_ok_iff.2 hf⟩

end Weights

/-! ## Regions -/

namespace Region

/-- A region as its checks leave it: one weight of each side per event, nothing below zero, and
nothing kept. -/
structure Fresh (events : Nat) (R : Region) : Prop where
  backward_length : R.weights.backward.length = events
  forward_length : R.weights.forward.length = events
  signs : (∀ x ∈ R.weights.backward, 0 ≤ x) ∧ ∀ x ∈ R.weights.forward, 0 ≤ x
  given_nonneg : ∀ m, R.given = some m → 0 ≤ m
  derived : R.derived = none
  markings : R.markings = []

theorem checkMarking_ok {m : Int} (h : checkMarking (some m) = .ok ()) : 0 ≤ m := by
  by_contra hm
  have hneg : checkMarking (some m) = .error (.negativeMarking m) := if_pos (by omega)
  rw [hneg] at h
  cases h

theorem fresh_of_ok {utility : UtilityId} {events : Nat} {backward forward : List Value}
    {marking : Value} {R : Region} (h : read? utility events backward forward marking = .ok R) :
    R.utility = utility ∧ R.Fresh events := by
  obtain ⟨w, hw, h⟩ := except_bind_eq_ok.1 h
  obtain ⟨hb, hf⟩ := Weights.read?_sized hw
  obtain ⟨_, hs, h⟩ := except_bind_eq_ok.1 h
  obtain ⟨m, _, h⟩ := except_bind_eq_ok.1 h
  obtain ⟨_, hm, h⟩ := except_bind_eq_ok.1 h
  obtain rfl := Except.ok.inj h
  refine ⟨rfl, hb, hf, Weights.checkSigns_ok_iff.1 hs, fun n hn => ?_, rfl, rfl⟩
  obtain rfl : m = some n := hn
  exact checkMarking_ok hm

/-- Integers that pass the checks are taken over. -/
theorem ofWeights?_eq {utility : UtilityId} {events : Nat} {w : Weights} {m : Option Int}
    (hw : w.Sized events) (hs : (∀ x ∈ w.backward, 0 ≤ x) ∧ ∀ x ∈ w.forward, 0 ≤ x)
    (hm : ∀ k, m = some k → 0 ≤ k) :
    ofWeights? utility events w m = .ok { utility, weights := w, given := m } := by
  have hsigns : Weights.checkSigns ⟨w.backward, w.forward⟩ = .ok () :=
    Weights.checkSigns_ok_iff.2 hs
  cases m with
  | none =>
    simp only [ofWeights?, read?, Weights.read?, readWeights_integers _ hw.backward,
      readWeights_integers _ hw.forward, readMarking, bind, Except.bind, pure, Except.pure, hsigns,
      checkMarking]
  | some k =>
    have hk : 0 ≤ k := hm k rfl
    have hmarking : checkMarking (some k) = .ok () := if_neg (by omega)
    simp only [ofWeights?, read?, Weights.read?, readWeights_integers _ hw.backward,
      readWeights_integers _ hw.forward, readMarking, Value.integer?, Except.map, bind, Except.bind,
      pure, Except.pure, hsigns, hmarking]

theorem ofWeights?_fresh {utility : UtilityId} {events : Nat} {w : Weights} {m : Option Int}
    {R : Region} (h : ofWeights? utility events w m = .ok R) :
    R.utility = utility ∧ R.Fresh events :=
  fresh_of_ok h

theorem addScaled?_fresh {R other T : Region} {events : Nat} {factor : Value}
    (h : R.addScaled? other events factor = .ok (some T)) :
    T.utility = R.utility ∧ T.Fresh events := by
  unfold addScaled? at h
  split at h
  · cases h
  · obtain ⟨k, _, h⟩ := except_bind_eq_ok.1 h
    split at h
    · cases h
    · cases hw : ofWeights? R.utility events (R.weights.addScaled other.weights k) none with
      | error f => simp [hw, Except.map] at h
      | ok T' =>
        obtain rfl : T' = T := by simpa [hw, Except.map] using h
        exact ofWeights?_fresh hw

end Region

/-! ## Builders -/

namespace Builder

variable {B B' : Builder} {S : System} {watched : Bool} {U : RegionUtility}

theorem read?_sized {utility : UtilityId} {events : Nat} {backward forward : Option (List Value)}
    (h : read? utility events backward forward = .ok B) :
    B.utility = utility ∧ B.weights.Sized events := by
  obtain ⟨w, hw, h⟩ := except_bind_eq_ok.1 h
  obtain rfl : ⟨utility, w⟩ = B := Except.ok.inj h
  exact ⟨rfl, Weights.read?_sized hw⟩

theorem ofNet?_sized {utility : UtilityId} {events : Nat} {net : List Value}
    (h : ofNet? utility events net = .ok B) : B.utility = utility ∧ B.weights.Sized events := by
  obtain ⟨v, hv, h⟩ := except_bind_eq_ok.1 h
  obtain rfl : ⟨utility, Weights.ofNet v⟩ = B := Except.ok.inj h
  rw [← readWeights_length hv]
  exact ⟨rfl, Weights.sized_ofNet v⟩

theorem ofNet?_integers (utility : UtilityId) {events : Nat} {v : List Int}
    (h : v.length = events) :
    ofNet? utility events (v.map .integer) = .ok ⟨utility, Weights.ofNet v⟩ := by
  rw [ofNet?, readWeights_integers _ h]
  rfl

theorem addLoop?_ok {event weight : Value} (h : B.addLoop? U event weight = .ok B') :
    ∃ i k, B' = { B with weights := B.weights.addLoop i k } := by
  obtain ⟨i, _, h⟩ := except_bind_eq_ok.1 h
  obtain ⟨k, _, h⟩ := except_bind_eq_ok.1 h
  exact ⟨i, k, (Except.ok.inj h).symm⟩

theorem addScaled?_ok {R : Region} {events : Nat} {factor : Value}
    (h : B.addScaled? R events factor = .ok B') : R.utility = B.utility ∧
      ∃ k, B' = { B with weights := B.weights.accumulate events R.weights k } := by
  unfold addScaled? at h
  split at h
  · cases h
  · rename_i hsame
    obtain ⟨k, _, h⟩ := except_bind_eq_ok.1 h
    exact ⟨not_not.1 hsame, k, (Except.ok.inj h).symm⟩

theorem inspect_leads (B : Builder) (S : System) (U : RegionUtility) :
    (B.inspect S).Leads (RegionUtility.Fill S) U := by
  refine (RegionUtility.isConsistent_leads S _ U).bind fun consistent _ => ?_
  cases consistent with
  | true => exact .pure _
  | false => exact .note _

theorem finishNormal_leads (B : Builder) (S : System) (watched : Bool) (U : RegionUtility) :
    (B.finishNormal S watched).Leads (RegionUtility.Fill S) U :=
  (Attempt.Leads.provided (B.inspect_leads S U)).bind fun _ _ =>
    (RegionUtility.normalMarkingFor_leads S _ _).bind fun _ _ =>
      Attempt.Leads.state.bind fun _ _ => .ofExcept _

/-- A finished region is fresh. -/
theorem finishNormal_fresh {R : Region} (h : (B.finishNormal S watched U).answer = .ok R) :
    R.utility = B.utility ∧ R.Fresh U.size := by
  obtain ⟨_, hinspect, h, _⟩ := Attempt.bind_ok h
  obtain ⟨m, hnormal, h, _⟩ := Attempt.bind_ok h
  obtain ⟨U', hU', h, _⟩ := Attempt.bind_ok h
  have hprovided : (Attempt.provided watched (B.inspect S)).Leads (RegionUtility.Fill S) U :=
    .provided (B.inspect_leads S U)
  have hfills := hprovided.trans (RegionUtility.normalMarkingFor_leads S B.weights.net _)
  obtain rfl := Except.ok.inj hU'
  rw [Attempt.ofExcept_apply, RegionUtility.fills_size hfills] at h
  have hread : Region.ofWeights? B.utility U.size B.weights (some m) = .ok R := h
  exact Region.ofWeights?_fresh hread

end Builder

/-! ## Purified regions -/

namespace Region

variable {R : Region} {S : System} {watched : Bool} {U : RegionUtility}

theorem purified_leads (R : Region) (S : System) (watched : Bool) (U : RegionUtility) :
    (R.purified S watched).Leads (RegionUtility.Fill S) U :=
  Attempt.Leads.state.bind fun _ _ => (Attempt.Leads.ofExcept _).bind fun _ _ =>
    Builder.finishNormal_leads _ S watched _

/-- A purified region is fresh. -/
theorem purified_fresh {T : Region} (h : (R.purified S watched U).answer = .ok T) :
    T.utility = R.utility ∧ T.Fresh U.size := by
  obtain ⟨U', hU', h, _⟩ := Attempt.bind_ok h
  obtain rfl : U = U' := Except.ok.inj hU'
  obtain ⟨B, hB, h, _⟩ := Attempt.bind_ok h
  rw [← (Builder.ofNet?_sized hB).1]
  exact Builder.finishNormal_fresh h

/-- The builder that purifies a region has its net weights, as they are one per event. -/
theorem purified_eq (h : R.weights.Sized U.size) (S : System) (watched : Bool) :
    R.purified S watched U =
      Builder.finishNormal ⟨R.utility, Weights.ofNet R.weights.net⟩ S watched U := by
  have hnet := Builder.ofNet?_integers R.utility h.length_net
  change (Attempt.ofExcept (Builder.ofNet? R.utility U.size (R.weights.net.map .integer)) >>=
    fun B => B.finishNormal S watched) U = _
  rw [hnet]
  rfl

end Region

end RegionCalculus
