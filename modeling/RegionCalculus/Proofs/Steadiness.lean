import RegionCalculus.Proofs.Sessions

/-!
# Reached and steady sessions

Invariants over all commands that a session can be told, in any order.

* `Session.Reached s`: commands lead from the empty session to `s`.
* `Session.Steady u S s`: commands lead to `s`, and since utility `u` was made its system was `S`.
* `Session.Sound s`: all systems are valid, and regions refer to utilities that exist.
* `Session.Settled u S U s`: utility `u` is `U`; it and its regions are in step with `S`.

A reached session is sound (`Reached.sound`), a steady one also settled (`Steady.settled`).
-/

namespace RegionCalculus.Session
set_option autoImplicit false

inductive Reached : Session → Prop
  | empty : Reached {}
  | step {s : Session} (watched : Bool) (c : Command) :
      Reached s → Reached (step watched c s).2

def systemOf (s : Session) (u : UtilityId) : Option System := (s.utility? u).map (·.system)

/-- Commands lead to this session. One of them made the utility `u`, and from then on the system of
`u` has been `S` after each command. -/
inductive Steady (u : UtilityId) (S : System) : Session → Prop
  | made {s : Session} (watched : Bool) (on : SlotName) (events : Option (List String))
      (slot : Keep) :
      Reached s → u = s.utilities.length →
      (Session.step watched (.newUtility on events slot) s).2.systemOf u = some S →
      Steady u S (Session.step watched (.newUtility on events slot) s).2
  | step {s : Session} (watched : Bool) (c : Command) :
      Steady u S s → (Session.step watched c s).2.systemOf u = some S →
      Steady u S (Session.step watched c s).2

theorem Steady.reached {u : UtilityId} {S : System} {s : Session} (h : Steady u S s) :
    Reached s := by
  induction h with
  | made watched on events slot hs _ _ => exact .step watched _ hs
  | step watched c _ _ ih => exact .step watched c ih

/-! ## Sound sessions -/

structure Sound (s : Session) : Prop where
  valid : ∀ S ∈ s.systems, S.lts.Valid
  placed : ∀ R ∈ s.regions, R.utility < s.utilities.length

theorem sound_empty : Sound {} where
  valid := fun _ h => absurd h List.not_mem_nil
  placed := fun _ h => absurd h List.not_mem_nil

variable {s s' : Session}

theorem Touch.sound (h : Touch s s') (hs : s.Sound) : s'.Sound := by
  cases h with
  | slots _ => exact ⟨hs.valid, hs.placed⟩
  | builders _ => exact ⟨hs.valid, hs.placed⟩
  | tree t => exact ⟨hs.valid, hs.placed⟩
  | system hS =>
    refine ⟨fun S hmem => ?_, hs.placed⟩
    rcases List.mem_append.1 hmem with hmem | hmem
    · exact hs.valid S hmem
    · rw [List.mem_singleton.1 hmem]
      exact hS
  | utility _ _ =>
    refine ⟨hs.valid, fun R hR => ?_⟩
    rw [List.length_append]
    exact Nat.lt_add_right _ (hs.placed R hR)
  | @region R p hp _ =>
    refine ⟨hs.valid, fun R' hR' => ?_⟩
    rcases List.mem_append.1 hR' with hR' | hR'
    · exact hs.placed R' hR'
    · rw [List.mem_singleton.1 hR']
      obtain ⟨hlt, _⟩ := List.getElem?_eq_some_iff.1 (utility?_eq_some_iff.1 hp).2.1
      exact hlt
  | fill _ _ =>
    refine ⟨hs.valid, fun R hR => ?_⟩
    rw [setUtility, List.length_set]
    exact hs.placed R hR
  | @derive p h' hp hd =>
    refine ⟨hs.valid, fun R hR => ?_⟩
    simp only [setUtility, setRegion, List.length_set] at hR ⊢
    rcases List.mem_or_eq_of_mem_set hR with hR | rfl
    · exact hs.placed R hR
    · rw [(Region.derive_frame hd).1]
      exact hs.placed _ (List.mem_of_getElem? (region?_eq_some_iff.1 hp).2.1)

theorem Sound.touches (hs : s.Sound) (h : Relation.ReflTransGen Touch s s') : s'.Sound := by
  induction h with
  | refl => exact hs
  | tail _ hstep ih => exact hstep.sound ih

theorem Sound.setSystem (hs : s.Sound) {i : SystemId} {S S' : System}
    (hS : s.systems[i]? = some S) (hgrows : S.Grows S') : (s.setSystem i S').Sound := by
  refine ⟨fun T hT => ?_, hs.placed⟩
  rcases List.mem_or_eq_of_mem_set hT with hT | rfl
  · exact hs.valid T hT
  · exact hgrows.valid (hs.valid S (List.mem_of_getElem? hS))

theorem Sound.step (hs : s.Sound) (watched : Bool) (c : Command) : (step watched c s).2.Sound := by
  rcases perform_cases watched c s with hleads | ⟨i, S, S', hS, hgrows, hstate⟩
  · exact hs.touches hleads
  · change (perform watched c s).state.Sound
    rw [hstate]
    exact hs.setSystem hS hgrows

theorem Reached.sound (h : Reached s) : s.Sound := by
  induction h with
  | empty => exact sound_empty
  | step watched c _ ih => exact ih.step watched c

/-! ## Settled sessions -/

structure Settled (u : UtilityId) (S : System) (U : RegionUtility) (s : Session) : Prop where
  utility : s.utilities[u]? = some U
  system : s.systems[U.system]? = some S
  kept : U.InStep S
  regions : ∀ R ∈ s.regions, R.utility = u → R.InStep S U.events

variable {u : UtilityId} {S : System} {U : RegionUtility}

theorem Settled.placed (hs : s.Settled u S U) : s.utility? u = some ⟨u, U, S⟩ :=
  utility?_eq_some_iff.2 ⟨rfl, hs.utility, hs.system⟩

/-- What is found in the place of `u` is `U` with its system. -/
theorem Settled.eq_of_placed (hs : s.Settled u S U) {p : PlacedUtility}
    (hp : s.utility? p.id = some p) (hid : p.id = u) : p.utility = U ∧ p.system = S := by
  rw [hid, hs.placed] at hp
  obtain rfl := Option.some.inj hp
  exact ⟨rfl, rfl⟩

/-- Results that are kept for another utility do not matter, and those for `u` are in step. -/
theorem Settled.fill (hs : s.Settled u S U) {p : PlacedUtility} {U₁ : RegionUtility}
    (hp : s.utility? p.id = some p) (hfill : RegionUtility.Fill p.system p.utility U₁) :
    ∃ U', (s.setUtility p.id U₁).Settled u S U' := by
  by_cases hid : p.id = u
  · obtain ⟨hU, hS⟩ := hs.eq_of_placed hp hid
    rw [hU, hS] at hfill
    obtain ⟨hlt, _⟩ := List.getElem?_eq_some_iff.1 hs.utility
    refine ⟨U₁, ?_, ?_, hfill.inStep hs.kept, fun R hR hu => ?_⟩
    · rw [setUtility, hid]
      exact List.getElem?_set_self hlt
    · rw [hfill.system_eq]
      exact hs.system
    · rw [hfill.events_eq]
      exact hs.regions R hR hu
  · refine ⟨U, ?_, hs.system, hs.kept, hs.regions⟩
    rw [setUtility, List.getElem?_set_ne hid]
    exact hs.utility

theorem Settled.derive (hs : s.Settled u S U) {p : PlacedRegion} {h : Holding}
    (hp : s.region? p.id = some p) (hd : Holding.Derive p.system p.holding h) :
    ∃ U', ((s.setRegion p.id h.region).setUtility p.holding.region.utility h.utility).Settled
      u S U' := by
  obtain ⟨_, hregion, hutility⟩ := region?_eq_some_iff.1 hp
  obtain ⟨hkeeps, _, _, hsystem, hevents⟩ := Region.derive_frame hd
  by_cases hid : p.holding.region.utility = u
  · obtain ⟨hU, hS⟩ := hs.eq_of_placed hutility hid
    obtain ⟨hlt, _⟩ := List.getElem?_eq_some_iff.1 hs.utility
    have hR := hs.regions _ (List.mem_of_getElem? hregion) hid
    obtain ⟨r, ⟨R, U₀⟩, S₀⟩ := p
    obtain ⟨R', U'⟩ := h
    dsimp only at *
    subst hU hS
    refine ⟨U', ?_, ?_, ?_, fun T hT hu => ?_⟩
    · rw [setUtility, hid]
      exact List.getElem?_set_self hlt
    · rw [hsystem]
      exact hs.system
    · exact hs.kept.fills hd.fills
    · rcases List.mem_or_eq_of_mem_set hT with hT | rfl
      · rw [hevents]
        exact hs.regions T hT hu
      · exact hR.derive hd hs.kept
  · refine ⟨U, ?_, hs.system, hs.kept, fun T hT hu => ?_⟩
    · rw [setUtility, List.getElem?_set_ne hid]
      exact hs.utility
    · rcases List.mem_or_eq_of_mem_set hT with hT | rfl
      · exact hs.regions T hT hu
      · exact absurd (hkeeps.symm.trans hu) hid

theorem Touch.settled (h : Touch s s') (hs : s.Settled u S U) : ∃ U', s'.Settled u S U' := by
  cases h with
  | slots _ => exact ⟨U, hs.utility, hs.system, hs.kept, hs.regions⟩
  | builders _ => exact ⟨U, hs.utility, hs.system, hs.kept, hs.regions⟩
  | tree t => exact ⟨U, hs.utility, hs.system, hs.kept, hs.regions⟩
  | system _ =>
    obtain ⟨hlt, _⟩ := List.getElem?_eq_some_iff.1 hs.system
    exact ⟨U, hs.utility, (List.getElem?_append_left hlt).trans hs.system, hs.kept, hs.regions⟩
  | utility _ _ =>
    obtain ⟨hlt, _⟩ := List.getElem?_eq_some_iff.1 hs.utility
    exact ⟨U, (List.getElem?_append_left hlt).trans hs.utility, hs.system, hs.kept, hs.regions⟩
  | @region R p hp hfresh =>
    refine ⟨U, hs.utility, hs.system, hs.kept, fun T hT hu => ?_⟩
    rcases List.mem_append.1 hT with hT | hT
    · exact hs.regions T hT hu
    · obtain rfl := List.mem_singleton.1 hT
      obtain ⟨hid, _⟩ := utility?_eq_some_iff.1 hp
      rw [← hid] at hp hu
      rw [(hs.eq_of_placed hp hu).1] at hfresh
      exact hfresh.inStep
  | fill hp hfill => exact hs.fill hp hfill
  | derive hp hd => exact hs.derive hp hd

theorem Settled.touches (hs : s.Settled u S U) (h : Relation.ReflTransGen Touch s s') :
    ∃ U', s'.Settled u S U' := by
  induction h with
  | refl => exact ⟨U, hs⟩
  | tail _ hstep ih =>
    obtain ⟨U', hs'⟩ := ih
    exact hstep.settled hs'

/-- A system that grows keeps a session settled if it is another one than that of `u`. -/
theorem Settled.setSystem (hs : s.Settled u S U) {i : SystemId} {S' : System}
    (hsame : (s.setSystem i S').systemOf u = some S) : (s.setSystem i S').Settled u S U := by
  refine ⟨hs.utility, ?_, hs.kept, hs.regions⟩
  obtain ⟨p, hp, hS⟩ := Option.map_eq_some_iff.1 hsame
  obtain ⟨_, hU, hsystem⟩ := utility?_eq_some_iff.1 hp
  obtain rfl : U = p.utility := Option.some.inj (hs.utility.symm.trans hU)
  rw [← hS]
  exact hsystem

theorem Settled.step (hs : s.Settled u S U) (watched : Bool) (c : Command)
    (hsame : (step watched c s).2.systemOf u = some S) :
    ∃ U', (step watched c s).2.Settled u S U' := by
  rcases perform_cases watched c s with hleads | ⟨i, T, T', _, _, hstate⟩
  · exact hs.touches hleads
  · have hafter : (Session.step watched c s).2 = s.setSystem i T' := hstate
    rw [hafter] at hsame ⊢
    exact ⟨U, hs.setSystem hsame⟩

/-- A new utility is settled: nothing is kept in it, and no region refers to it yet. -/
theorem settled_newUtility (hs : s.Sound) (watched : Bool) (on : SlotName)
    (events : Option (List String)) (slot : Keep)
    (hsame : (Session.step watched (.newUtility on events slot) s).2.systemOf s.utilities.length =
      some S) :
    ∃ U, (Session.step watched (.newUtility on events slot) s).2.Settled s.utilities.length S U := by
  obtain ⟨p, hp, rfl⟩ := Option.map_eq_some_iff.1 hsame
  obtain ⟨_, hU, hsystem⟩ := utility?_eq_some_iff.1 hp
  have hstep : (Session.step watched (.newUtility on events slot) s).2 =
      (perform watched (.newUtility on events slot) s).state := rfl
  rw [hstep] at hU hsystem ⊢
  rcases newUtility_cases watched on events slot s with hsame | ⟨i, T, order, slots, hT, ho, hnew⟩
  · rw [hsame] at hU
    obtain ⟨hlt, _⟩ := List.getElem?_eq_some_iff.1 hU
    exact absurd hlt (Nat.lt_irrefl _)
  · rw [hnew] at hU hsystem ⊢
    have hplaced : p.utility = { system := i, events := order } := by
      simpa using hU.symm
    rw [hplaced] at hsystem
    obtain rfl : T = p.system := Option.some.inj (hT.symm.trans hsystem)
    refine ⟨_, List.getElem?_concat_length, hT, RegionUtility.inStep_new (eventOrder_of_ok ho),
      fun R hR hu => ?_⟩
    · exact absurd hu (Nat.ne_of_lt (hs.placed R hR))

/-- In a steady session, the utility and its regions are in step with the system. -/
theorem Steady.settled (h : Steady u S s) : ∃ U, s.Settled u S U := by
  induction h with
  | made watched on events slot hs hu hsame =>
    subst hu
    exact settled_newUtility hs.sound watched on events slot hsame
  | step watched c _ hsame ih =>
    obtain ⟨U, hU⟩ := ih
    exact hU.step watched c hsame

theorem Steady.valid (h : Steady u S s) : S.lts.Valid := by
  obtain ⟨U, hU⟩ := h.settled
  exact h.reached.sound.valid S (List.mem_of_getElem? hU.system)

/-! ## A small session -/

/-- A ring of three states, one with a loop, and a state that only leads into the ring. -/
def ringSystem : System where
  name := "ring"
  written :=
    { states := [.text "s0", .text "s1", .text "s2", .text "s3"]
      arcs := [⟨.text "s0", .text "s1", "a"⟩, ⟨.text "s1", .text "s2", "b"⟩,
        ⟨.text "s2", .text "s0", "a"⟩, ⟨.text "s1", .text "s1", "c"⟩, ⟨.text "s3", .text "s0", "b"⟩]
      initial := some (.text "s0") }
  alphabet := ["a", "b", "c"]
  alphabet_eq := rfl

/-- A pure region of the ring that is consistent. -/
def ringRegion : PlacedRegion :=
  ⟨0, ⟨⟨0, ⟨[0, 2, 0], [1, 0, 0]⟩, none, none, []⟩, ⟨0, ["a", "b", "c"], none, none, none⟩⟩,
    ringSystem⟩

def ringMade : Session := (step false (.systemOfArcs
  [(.text "s0", .text "a", .text "s1"), (.text "s1", .text "b", .text "s2"),
    (.text "s2", .text "a", .text "s0"), (.text "s1", .text "c", .text "s1"),
    (.text "s3", .text "b", .text "s0")] (.text "s0") "ring" (some "lts")) {}).2

/-- The session that has also made its utility and its region. -/
def ringSession : Session := (step false
  (.newRegion "utility" [.integer 0, .integer 2, .integer 0] [.integer 1, .integer 0, .integer 0]
    .null (some "region")) (step false (.newUtility "lts" none (some "utility")) ringMade).2).2

theorem steady_ringSession : ringSession.Steady 0 ringSystem := by
  have hmade : ringMade.Reached := .step false _ .empty
  exact .step false _ (.made false "lts" none (some "utility") hmade rfl rfl) rfl

theorem region?_ringSession : ringSession.region? 0 = some ringRegion := rfl

end RegionCalculus.Session
