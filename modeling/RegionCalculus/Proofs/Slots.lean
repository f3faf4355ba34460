import RegionCalculus.Proofs.Sessions

/-!
# Commands on slots

What a command does when the slots that it names hold the objects that it needs, and what is found in
slots and in place of objects afterwards.

* `Session.place s slot r`: the session with `r` kept in `slot`.
* `Session.withRegion s R`: the session with one more region; `region?_withRegion` finds the old ones.
* `Session.utilityIn? s name`, `regionIn?`, `builderIn?`: the utility, the region and the builder in a
  slot.
* `Session.KeepsBut names s s'`: the slots with other names hold the regions that they held.
* `Session.step_toUtility`, `step_toRegion`, `step_toBuilder`, `operand_slot`: commands go to what the
  slot holds.
* `Session.produce_apply`, `rebuild_apply`, `produceBuilder_apply`: the outcomes of the last steps of
  commands that make or change an object.
-/

namespace RegionCalculus.Session
set_option autoImplicit false

open Attempt

variable {α β : Type} {s : Session} {name : SlotName}

/-! ## Keeping references -/

def place (s : Session) (slot : Keep) (r : Ref) : Session := (keep slot r s).state

theorem lookup_place_self (s : Session) (name : SlotName) (r : Ref) :
    (s.place (some name) r).slots.lookup name = some r := List.lookup_cons_self

theorem lookup_place_ne {slot : Keep} (h : slot ≠ some name) (s : Session) (r : Ref) :
    (s.place slot r).slots.lookup name = s.slots.lookup name := by
  cases slot with
  | none => rfl
  | some other =>
    have hname : name ≠ other := fun e => h (by rw [e])
    change ((other, r) :: s.slots.filter (·.1 ≠ other)).lookup name = _
    rw [List.lookup_cons, show (name == other) = false by simpa using hname,
      lookup_filter_ne hname]

/-- A slot that already holds the reference holds it still. -/
theorem lookup_place_of_eq {r : Ref} (h : s.slots.lookup name = some r) (slot : Keep) :
    (s.place slot r).slots.lookup name = some r := by
  by_cases hslot : slot = some name
  · rw [hslot]
    exact lookup_place_self s name r
  · rw [lookup_place_ne hslot]
    exact h

@[simp] theorem region?_place (s : Session) (slot : Keep) (r : Ref) (i : RegionId) :
    (s.place slot r).region? i = s.region? i := by cases slot <;> rfl

@[simp] theorem builder?_place (s : Session) (slot : Keep) (r : Ref) (b : BuilderId) :
    (s.place slot r).builder? b = s.builder? b := by cases slot <;> rfl

/-! ## Looking at slots -/

/-- The utility that stands in a slot. -/
def utilityIn? (s : Session) (name : SlotName) : Option PlacedUtility :=
  (s.slots.lookup name).bind s.utilityOf?

/-- The region that stands in a slot. -/
def regionIn? (s : Session) (name : SlotName) : Option PlacedRegion :=
  (s.slots.lookup name).bind s.regionOf?

def builderIn? (s : Session) (name : SlotName) : Option PlacedBuilder :=
  (s.slots.lookup name).bind s.builderOf?

theorem utilityIn?_eq_some_iff {p : PlacedUtility} :
    s.utilityIn? name = some p ↔
      s.slots.lookup name = some (.utility p.id) ∧ s.utility? p.id = some p := by
  rw [utilityIn?, Option.bind_eq_some_iff]
  constructor
  · rintro ⟨r, hr, hp⟩
    cases r with
    | utility u =>
      have hplaced : s.utility? u = some p := hp
      obtain ⟨rfl, _⟩ := utility?_eq_some_iff.1 hplaced
      exact ⟨hr, hplaced⟩
    | _ => cases hp
  · rintro ⟨hr, hp⟩
    exact ⟨_, hr, hp⟩

theorem regionIn?_eq_some_iff {p : PlacedRegion} :
    s.regionIn? name = some p ↔
      s.slots.lookup name = some (.region p.id) ∧ s.region? p.id = some p := by
  rw [regionIn?, Option.bind_eq_some_iff]
  constructor
  · rintro ⟨r, hr, hp⟩
    cases r with
    | region i =>
      have hplaced : s.region? i = some p := hp
      obtain ⟨rfl, _⟩ := region?_eq_some_iff.1 hplaced
      exact ⟨hr, hplaced⟩
    | _ => cases hp
  · rintro ⟨hr, hp⟩
    exact ⟨_, hr, hp⟩

theorem builderIn?_eq_some_iff {p : PlacedBuilder} :
    s.builderIn? name = some p ↔
      s.slots.lookup name = some (.builder p.id) ∧ s.builder? p.id = some p := by
  rw [builderIn?, Option.bind_eq_some_iff]
  constructor
  · rintro ⟨r, hr, hp⟩
    cases r with
    | builder b =>
      have hplaced : s.builder? b = some p := hp
      obtain ⟨rfl, _⟩ := builder?_eq_some_iff.1 hplaced
      exact ⟨hr, hplaced⟩
    | _ => cases hp
  · rintro ⟨hr, hp⟩
    exact ⟨_, hr, hp⟩

theorem regionIn?_place_self {i : RegionId} {p : PlacedRegion} (hp : s.region? i = some p)
    (name : SlotName) : (s.place (some name) (.region i)).regionIn? name = some p := by
  obtain ⟨rfl, _⟩ := region?_eq_some_iff.1 hp
  exact regionIn?_eq_some_iff.2 ⟨lookup_place_self s name _, by rwa [region?_place]⟩

theorem builderIn?_place_self {b : BuilderId} {p : PlacedBuilder} (hp : s.builder? b = some p)
    (name : SlotName) : (s.place (some name) (.builder b)).builderIn? name = some p := by
  obtain ⟨rfl, _⟩ := builder?_eq_some_iff.1 hp
  exact builderIn?_eq_some_iff.2 ⟨lookup_place_self s name _, by rwa [builder?_place]⟩

/-- The region in a slot is found in its place. -/
theorem region?_of_regionIn? {p : PlacedRegion} (h : s.regionIn? name = some p) :
    s.region? p.id = some p := (regionIn?_eq_some_iff.1 h).2

theorem builder?_of_builderIn? {p : PlacedBuilder} (h : s.builderIn? name = some p) :
    s.builder? p.id = some p := (builderIn?_eq_some_iff.1 h).2

theorem owner_of_regionIn? {p : PlacedRegion} (h : s.regionIn? name = some p) :
    s.utility? p.owner.id = some p.owner := (region?_eq_some_iff.1 (region?_of_regionIn? h)).2.2

theorem owner_of_builderIn? {p : PlacedBuilder} (h : s.builderIn? name = some p) :
    s.utility? p.owner.id = some p.owner := (builder?_eq_some_iff.1 (builder?_of_builderIn? h)).2.2

/-- The slots with other names hold the regions that they held. -/
def KeepsBut (names : List SlotName) (s s' : Session) : Prop :=
  ∀ name p, name ∉ names → s.regionIn? name = some p → s'.regionIn? name = some p

variable {names : List SlotName} {s' s'' : Session}

theorem KeepsBut.trans (h : KeepsBut names s s') (h' : KeepsBut names s' s'') :
    KeepsBut names s s'' := fun name p hname hp => h' name p hname (h name p hname hp)

theorem KeepsBut.mono {names' : List SlotName} (h : KeepsBut names s s') (hsub : names ⊆ names') :
    KeepsBut names' s s' := fun name p hname hp => h name p (fun hmem => hname (hsub hmem)) hp

theorem keepsBut_place (h : name ∈ names) (s : Session) (r : Ref) :
    KeepsBut names s (s.place (some name) r) := by
  intro other p hother hp
  obtain ⟨hslot, hplaced⟩ := regionIn?_eq_some_iff.1 hp
  have hne : (some name : Keep) ≠ some other := fun e => hother (Option.some.inj e ▸ h)
  exact regionIn?_eq_some_iff.2 ⟨(lookup_place_ne hne s r).trans hslot, by rwa [region?_place]⟩

theorem lookup_bind {pick : Session → Ref → Option α} {a : α}
    (h : (s.slots.lookup name).bind (pick s) = some a) (k : α → Attempt Session β) :
    (lookup pick name >>= k) s = k a s := by
  have hlookup : lookup pick name s = ⟨.ok a, s, []⟩ := by rw [lookup, h]
  rw [bind_of_ok hlookup, List.nil_append]

theorem operand_slot {p : PlacedRegion} (h : s.regionIn? name = some p) :
    operand (.slot name) s = ⟨.ok (.region p), s, []⟩ := by
  obtain ⟨hslot, hp⟩ := regionIn?_eq_some_iff.1 h
  have hregion : s.regionOf? (.region p.id) = some p := hp
  rw [operand, refAt, lookup_bind (by rw [hslot]; rfl), bind_of_ok (state_apply s)]
  simp only [hregion]
  rfl

/-- A command to a slot goes to the utility in it. -/
theorem step_toUtility {p : PlacedUtility} (h : s.utilityIn? name = some p) (watched : Bool)
    (c : UtilityCommand) :
    (step watched (.toUtility name c) s).1.answer = (tellUtility p c s).answer ∧
      (step watched (.toUtility name c) s).2 = (tellUtility p c s).state := by
  have hperform : perform watched (.toUtility name c) s = tellUtility p c s := lookup_bind h _
  exact ⟨congrArg Outcome.answer hperform, congrArg Outcome.state hperform⟩

/-- A command to a slot goes to the region in it. -/
theorem step_toRegion {p : PlacedRegion} (h : s.regionIn? name = some p) (watched : Bool)
    (c : RegionCommand) :
    (step watched (.toRegion name c) s).1.answer = (tellRegion watched p c s).answer ∧
      (step watched (.toRegion name c) s).2 = (tellRegion watched p c s).state := by
  have hperform : perform watched (.toRegion name c) s = tellRegion watched p c s := lookup_bind h _
  exact ⟨congrArg Outcome.answer hperform, congrArg Outcome.state hperform⟩

theorem step_toBuilder {p : PlacedBuilder} (h : s.builderIn? name = some p) (watched : Bool)
    (c : BuilderCommand) :
    (step watched (.toBuilder name c) s).1.answer = (tellBuilder watched p c s).answer ∧
      (step watched (.toBuilder name c) s).2 = (tellBuilder watched p c s).state := by
  have hperform : perform watched (.toBuilder name c) s = tellBuilder watched p c s :=
    lookup_bind h _
  exact ⟨congrArg Outcome.answer hperform, congrArg Outcome.state hperform⟩

/-! ## One more region -/

def withRegion (s : Session) (R : Region) : Session := { s with regions := s.regions ++ [R] }

theorem region?_withRegion {i : RegionId} {p : PlacedRegion} (h : s.region? i = some p)
    (R : Region) : (s.withRegion R).region? i = some p := by
  obtain ⟨hid, hR, hU⟩ := region?_eq_some_iff.1 h
  obtain ⟨hlt, _⟩ := List.getElem?_eq_some_iff.1 hR
  exact region?_eq_some_iff.2 ⟨hid, (List.getElem?_append_left hlt).trans hR, hU⟩

theorem keepsBut_withRegion (s : Session) (R : Region) : KeepsBut names s (s.withRegion R) := by
  intro name p _ hp
  obtain ⟨hslot, hplaced⟩ := regionIn?_eq_some_iff.1 hp
  exact regionIn?_eq_some_iff.2 ⟨hslot, region?_withRegion hplaced R⟩

theorem region?_withRegion_new {R : Region} {p : PlacedUtility} (h : s.utility? p.id = some p)
    (hid : R.utility = p.id) :
    (s.withRegion R).region? s.regions.length =
      some ⟨s.regions.length, ⟨R, p.utility⟩, p.system⟩ := by
  refine region?_eq_some_iff.2 ⟨rfl, List.getElem?_concat_length, ?_⟩
  rw [PlacedRegion.owner, hid]
  exact h

theorem produce_apply (R : Region) (slot : Keep) (s : Session) :
    produce R slot s =
      ⟨.ok (.text R.shown), (s.withRegion R).place slot (.region s.regions.length), []⟩ := rfl

/-! ## Builders -/

theorem rebuild_apply (b : BuilderId) (B : Builder) (slot : Keep) (s : Session) :
    rebuild b B slot s = ⟨.ok (.weights B.weights), (s.setBuilder b B).place slot (.builder b), []⟩ :=
  rfl

/-- A builder that is put in its place again is found in its slot. -/
theorem builderIn?_setBuilder {p : PlacedBuilder} {B : Builder} (h : s.builderIn? name = some p)
    (hB : B.utility = p.builder.utility) :
    (s.setBuilder p.id B).builderIn? name = some { p with builder := B } := by
  obtain ⟨hslot, hp⟩ := builderIn?_eq_some_iff.1 h
  obtain ⟨_, hold, hU⟩ := builder?_eq_some_iff.1 hp
  obtain ⟨hlt, _⟩ := List.getElem?_eq_some_iff.1 hold
  refine builderIn?_eq_some_iff.2 ⟨hslot, builder?_eq_some_iff.2
    ⟨rfl, List.getElem?_set_self hlt, ?_⟩⟩
  rw [PlacedBuilder.owner, hB]
  exact hU

def withBuilder (s : Session) (B : Builder) : Session := { s with builders := s.builders ++ [B] }

theorem builder?_withBuilder {B : Builder} {p : PlacedUtility} (h : s.utility? p.id = some p)
    (hid : B.utility = p.id) :
    (s.withBuilder B).builder? s.builders.length =
      some ⟨s.builders.length, B, p.utility, p.system⟩ := by
  refine builder?_eq_some_iff.2 ⟨rfl, List.getElem?_concat_length, ?_⟩
  rw [PlacedBuilder.owner, hid]
  exact h

theorem produceBuilder_apply (B : Builder) (slot : Keep) (s : Session) :
    produceBuilder B slot s =
      ⟨.ok (.weights B.weights), (s.withBuilder B).place slot (.builder s.builders.length), []⟩ :=
  rfl

end RegionCalculus.Session
