import RegionCalculus.Proofs.Construction
import RegionCalculus.Proofs.Derivations
import RegionCalculus.Session.Step

/-!
# What a command does to a session

A command either lets one system grow or touches nothing but the other objects: it adds objects,
changes slots and builders, and lets utilities and regions keep more results.

* `Session.Touch s s'`: one change that leaves all systems as they are. A slot comes to refer to the tree
  of a utility only if the utility keeps one (`Session.HasTree`); `Session.Crafts` says what may be done
  to builders.
* `Session.perform_cases`: what any command does, in these terms.
-/

namespace RegionCalculus.Session
set_option autoImplicit false

open Attempt

def HasTree (s : Session) (u : UtilityId) : Prop :=
  ∃ p, s.utility? u = some p ∧ p.utility.tree.isSome

/-- What is done to builders: a new one is made for a utility or copies a region, or one is changed. -/
inductive Crafts (s : Session) : List Builder → Prop
  | made {B : Builder} {p : PlacedUtility} :
      s.utility? B.utility = some p → B.weights.Sized p.utility.size →
      Crafts s (s.builders ++ [B])
  | copied {p : PlacedRegion} :
      s.region? p.id = some p → Crafts s (s.builders ++ [Builder.ofRegion p.holding.region])
  | loop {b : BuilderId} {B : Builder} (i : Nat) (k : Int) :
      s.builders[b]? = some B →
      Crafts s (s.builders.set b { B with weights := B.weights.addLoop i k })
  | added {b : BuilderId} {B : Builder} {p : PlacedUtility} {q : PlacedRegion} (k : Int) :
      s.builders[b]? = some B → s.utility? B.utility = some p → s.region? q.id = some q →
      q.holding.region.utility = B.utility →
      Crafts s (s.builders.set b
        { B with weights := B.weights.accumulate p.utility.size q.holding.region.weights k })
  | purified {b : BuilderId} {B : Builder} :
      s.builders[b]? = some B → Crafts s (s.builders.set b B.purified)

inductive Touch : Session → Session → Prop
  | slots {s : Session} {slots : List (SlotName × Ref)} :
      (∀ name u, slots.lookup name = some (.treeOf u) →
        s.slots.lookup name = some (.treeOf u) ∨ s.HasTree u) →
      Touch s { s with slots }
  | builders {s : Session} {builders : List Builder} :
      s.Crafts builders → Touch s { s with builders }
  | tree {s : Session} (t : WrittenTree) : Touch s { s with trees := s.trees ++ [t] }
  | system {s : Session} {S : System} :
      S.lts.Valid → Touch s { s with systems := s.systems ++ [S] }
  | utility {s : Session} {i : SystemId} {S : System} {given : Option (List String)}
      {events : List String} :
      s.systems[i]? = some S → eventOrder? S.alphabet given = .ok events →
      Touch s { s with utilities := s.utilities ++ [{ system := i, events }] }
  | region {s : Session} {R : Region} {p : PlacedUtility} :
      s.utility? R.utility = some p → R.Fresh p.utility.size →
      Touch s { s with regions := s.regions ++ [R] }
  | fill {s : Session} {p : PlacedUtility} {U : RegionUtility} :
      s.utility? p.id = some p → RegionUtility.Fill p.system p.utility U →
      Touch s (s.setUtility p.id U)
  | derive {s : Session} {p : PlacedRegion} {h : Holding} :
      s.region? p.id = some p → Holding.Derive p.system p.holding h →
      Touch s ((s.setRegion p.id h.region).setUtility p.holding.region.utility h.utility)

variable {α β : Type} {s : Session}

/-! ## Objects in place -/

/-- The utility of a region in its place. -/
abbrev PlacedRegion.owner (p : PlacedRegion) : PlacedUtility :=
  ⟨p.holding.region.utility, p.holding.utility, p.system⟩

/-- The utility of a builder in its place. -/
abbrev PlacedBuilder.owner (p : PlacedBuilder) : PlacedUtility :=
  ⟨p.builder.utility, p.utility, p.system⟩

theorem utility?_eq_some_iff {u : UtilityId} {p : PlacedUtility} :
    s.utility? u = some p ↔
      p.id = u ∧ s.utilities[u]? = some p.utility ∧ s.systems[p.utility.system]? = some p.system := by
  obtain ⟨i, U, S⟩ := p
  simp only [utility?, Option.bind_eq_bind, Option.bind_eq_some_iff, Option.some.injEq,
    PlacedUtility.mk.injEq, pure]
  constructor
  · rintro ⟨U', hU, S', hS, rfl, rfl, rfl⟩
    exact ⟨rfl, hU, hS⟩
  · rintro ⟨rfl, hU, hS⟩
    exact ⟨U, hU, S, hS, rfl, rfl, rfl⟩

theorem region?_eq_some_iff {r : RegionId} {p : PlacedRegion} :
    s.region? r = some p ↔
      p.id = r ∧ s.regions[r]? = some p.holding.region ∧
        s.utility? p.owner.id = some p.owner := by
  obtain ⟨i, ⟨R, U⟩, S⟩ := p
  simp only [region?, Option.bind_eq_bind, Option.bind_eq_some_iff, Option.some.injEq,
    PlacedRegion.mk.injEq, Holding.mk.injEq, pure]
  constructor
  · rintro ⟨R', hR, q, hq, rfl, ⟨rfl, rfl⟩, rfl⟩
    obtain ⟨hid, _⟩ := utility?_eq_some_iff.1 hq
    exact ⟨rfl, hR, by rw [PlacedRegion.owner, hq, ← hid]⟩
  · rintro ⟨rfl, hR, hU⟩
    exact ⟨R, hR, _, hU, rfl, ⟨rfl, rfl⟩, rfl⟩

/-- The utility of a region is what is found in its place. -/
theorem owner_eq {u : UtilityId} {r : RegionId} {p : PlacedUtility} {q : PlacedRegion}
    (hp : s.utility? u = some p) (hq : s.region? r = some q) (hid : q.owner.id = u) :
    q.holding.utility = p.utility ∧ q.system = p.system := by
  obtain ⟨_, _, hU⟩ := region?_eq_some_iff.1 hq
  rw [hid] at hU
  obtain rfl := Option.some.inj (hU.symm.trans hp)
  exact ⟨rfl, rfl⟩

theorem builder?_eq_some_iff {b : BuilderId} {p : PlacedBuilder} :
    s.builder? b = some p ↔
      p.id = b ∧ s.builders[b]? = some p.builder ∧ s.utility? p.owner.id = some p.owner := by
  obtain ⟨i, B, U, S⟩ := p
  simp only [builder?, Option.bind_eq_bind, Option.bind_eq_some_iff, Option.some.injEq,
    PlacedBuilder.mk.injEq, pure]
  constructor
  · rintro ⟨B', hB, q, hq, rfl, rfl, rfl, rfl⟩
    obtain ⟨hid, _⟩ := utility?_eq_some_iff.1 hq
    exact ⟨rfl, hB, by rw [PlacedBuilder.owner, hq, ← hid]⟩
  · rintro ⟨rfl, hB, hU⟩
    exact ⟨B, hB, _, hU, rfl, rfl, rfl, rfl⟩

/-- A utility that is put in its place again is found there. -/
theorem utility?_setUtility {p : PlacedUtility} {U : RegionUtility} (h : s.utility? p.id = some p)
    (hsystem : U.system = p.utility.system) :
    (s.setUtility p.id U).utility? p.id = some { p with utility := U } := by
  obtain ⟨_, hU, hS⟩ := utility?_eq_some_iff.1 h
  obtain ⟨hlt, _⟩ := List.getElem?_eq_some_iff.1 hU
  exact utility?_eq_some_iff.2 ⟨rfl, List.getElem?_set_self hlt, hsystem ▸ hS⟩

/-- A region that is put in its place again with its utility is found there. -/
theorem region?_set {p : PlacedRegion} {h : Holding} (hp : s.region? p.id = some p)
    (hregion : h.region.utility = p.holding.region.utility)
    (hsystem : h.utility.system = p.holding.utility.system) :
    ((s.setRegion p.id h.region).setUtility p.holding.region.utility h.utility).region? p.id =
      some { p with holding := h } := by
  obtain ⟨_, hR, hU⟩ := region?_eq_some_iff.1 hp
  obtain ⟨hlt, _⟩ := List.getElem?_eq_some_iff.1 hR
  have hplaced := utility?_setUtility (s := s.setRegion p.id h.region) (U := h.utility)
    (p := p.owner) hU hsystem
  refine region?_eq_some_iff.2 ⟨rfl, List.getElem?_set_self hlt, ?_⟩
  rw [PlacedRegion.owner, hregion]
  exact hplaced

theorem setUtility_self {p : PlacedUtility} (h : s.utility? p.id = some p) :
    s.setUtility p.id p.utility = s := by
  obtain ⟨_, hU, _⟩ := utility?_eq_some_iff.1 h
  obtain ⟨_, hget⟩ := List.getElem?_eq_some_iff.1 hU
  rw [setUtility, ← hget, List.set_getElem_self]

theorem setRegion_self {p : PlacedRegion} (h : s.region? p.id = some p) :
    s.setRegion p.id p.holding.region = s := by
  obtain ⟨_, hR, _⟩ := region?_eq_some_iff.1 h
  obtain ⟨_, hget⟩ := List.getElem?_eq_some_iff.1 hR
  rw [setRegion, ← hget, List.set_getElem_self]

/-! ## Parts of commands -/

theorem lookup_state {pick : Session → Ref → Option α} {name : SlotName} :
    (lookup pick name s).state = s := by
  unfold lookup
  split <;> rfl

theorem lookup_ok {pick : Session → Ref → Option α} {name : SlotName} {a : α}
    (h : (lookup pick name s).answer = .ok a) :
    ∃ r, s.slots.lookup name = some r ∧ pick s r = some a := by
  unfold lookup at h
  split at h
  · rename_i b hb
    obtain rfl : b = a := Except.ok.inj h
    exact Option.bind_eq_some_iff.1 hb
  · cases h

/-- Looking at a slot changes nothing; the rest may rely on what the slot holds. -/
theorem lookup_leads {R : Session → Session → Prop} {pick : Session → Ref → Option α}
    {name : SlotName} {k : α → Attempt Session β}
    (h : ∀ r a, pick s r = some a → (k a).Leads R s) : (lookup pick name >>= k).Leads R s := by
  refine Leads.bind_of_state_eq lookup_state fun a ha => ?_
  obtain ⟨r, _, hr⟩ := lookup_ok ha
  exact h r a hr

theorem systemAt_ok {name : SlotName} {i : SystemId} {S : System}
    (h : (systemAt name s).answer = .ok (i, S)) :
    s.slots.lookup name = some (.system i) ∧ s.systems[i]? = some S := by
  obtain ⟨r, hslot, hr⟩ := lookup_ok h
  cases r with
  | system j =>
    obtain ⟨S', hS, hpair⟩ := Option.map_eq_some_iff.1 hr
    obtain ⟨rfl, rfl⟩ := Prod.mk.inj hpair
    exact ⟨hslot, hS⟩
  | _ => cases hr

theorem systemAt_of_slot {name : SlotName} {i : SystemId} {S : System}
    (hslot : s.slots.lookup name = some (.system i)) (hS : s.systems[i]? = some S) :
    (systemAt name s).answer = .ok (i, S) := by
  simp only [systemAt, lookup, hslot, Option.bind_some, systemOf?, hS, Option.map_some]

theorem systemAt_leads {R : Session → Session → Prop} {name : SlotName}
    {k : SystemId × System → Attempt Session β}
    (h : ∀ i S, s.systems[i]? = some S → (k (i, S)).Leads R s) :
    (systemAt name >>= k).Leads R s :=
  Leads.bind_of_state_eq lookup_state fun _ ha => h _ _ (systemAt_ok ha).2

theorem utilityAt_leads {R : Session → Session → Prop} {name : SlotName}
    {k : PlacedUtility → Attempt Session β}
    (h : ∀ p, s.utility? p.id = some p → (k p).Leads R s) : (utilityAt name >>= k).Leads R s := by
  refine lookup_leads fun r p hp => ?_
  cases r with
  | utility u =>
    obtain ⟨rfl, _⟩ := utility?_eq_some_iff.1 hp
    exact h p hp
  | _ => cases hp

theorem regionAt_leads {R : Session → Session → Prop} {name : SlotName}
    {k : PlacedRegion → Attempt Session β}
    (h : ∀ p, s.region? p.id = some p → (k p).Leads R s) : (regionAt name >>= k).Leads R s := by
  refine lookup_leads fun r p hp => ?_
  cases r with
  | region r =>
    obtain ⟨rfl, _⟩ := region?_eq_some_iff.1 hp
    exact h p hp
  | _ => cases hp

theorem lookup_filter_ne {l : List (SlotName × Ref)} {name other : SlotName} (h : other ≠ name) :
    (l.filter (·.1 ≠ name)).lookup other = l.lookup other := by
  induction l with
  | nil => rfl
  | cons e l ih =>
    by_cases he : e.1 = name
    · have hne : (other == e.1) = false := by simpa [he] using h
      rw [List.filter_cons_of_neg (by simpa using he), ih, List.lookup_cons, hne]
    · rw [List.filter_cons_of_pos (by simpa using he), List.lookup_cons, List.lookup_cons, ih]

theorem keep_leads (slot : Keep) (r : Ref) (s : Session) (hr : ∀ u, r = .treeOf u → s.HasTree u) :
    (keep slot r).Leads Touch s := by
  cases slot with
  | none => exact .update .refl
  | some name =>
    refine .update (.single (.slots fun other u h => ?_))
    by_cases hname : other = name
    · subst hname
      rw [List.lookup_cons_self] at h
      exact .inr (hr u (Option.some.inj h))
    · rw [List.lookup_cons, show (other == name) = false by simpa using hname,
        lookup_filter_ne hname] at h
      exact .inl h

theorem onUtility_leads {p : PlacedUtility} {x : Attempt RegionUtility α}
    (hp : s.utility? p.id = some p) (hx : x.Leads (RegionUtility.Fill p.system) p.utility) :
    (onUtility p x).Leads Touch s := by
  have hfills : ∀ U, Relation.ReflTransGen (RegionUtility.Fill p.system) p.utility U →
      Relation.ReflTransGen Touch s (s.setUtility p.id U) := by
    intro U hU
    induction hU with
    | refl => rw [setUtility_self hp]
    | @tail U U' hU hstep ih =>
      have hplaced := utility?_setUtility hp (RegionUtility.fills_frame hU).1
      have hset : (s.setUtility p.id U).setUtility p.id U' = s.setUtility p.id U' := by
        simp only [setUtility, List.set_set]
      rw [← hset]
      exact ih.tail (Touch.fill (p := { p with utility := U }) hplaced hstep)
  exact Leads.within (hfills _ hx)

theorem onRegion_leads {p : PlacedRegion} {x : Attempt Holding α}
    (hp : s.region? p.id = some p) (hx : x.Leads (Holding.Derive p.system) p.holding) :
    (onRegion p x).Leads Touch s := by
  have hderives : ∀ h, Relation.ReflTransGen (Holding.Derive p.system) p.holding h →
      Relation.ReflTransGen Touch s
        ((s.setRegion p.id h.region).setUtility p.holding.region.utility h.utility) := by
    intro h hh
    induction hh with
    | refl =>
      obtain ⟨_, _, hU⟩ := region?_eq_some_iff.1 hp
      rw [setRegion_self hp, setUtility_self (p := p.owner) hU]
    | @tail h h' hh hstep ih =>
      obtain ⟨hutility, _, _, hsystem, _⟩ := Region.derives_frame hh
      have hplaced := region?_set hp hutility hsystem
      have htouch := Touch.derive (p := { p with holding := h }) hplaced hstep
      simp only [setRegion, setUtility, List.set_set, hutility] at htouch
      exact ih.tail htouch
  exact Leads.within (hderives _ hx)

theorem produce_leads {R : Region} {p : PlacedUtility} (slot : Keep)
    (hp : s.utility? R.utility = some p) (hR : R.Fresh p.utility.size) :
    (produce R slot).Leads Touch s := by
  have hadd : (addRegion R).Leads Touch s := .single (.region hp hR)
  exact hadd.bind fun _ _ => (keep_leads _ _ _ (by simp)).bind fun _ _ => .pure _

theorem produce_outcome (R : Region) (slot : Keep) (s : Session) :
    (produce R slot s).answer = .ok (.text R.shown) ∧
      ∃ slots, (produce R slot s).state = { s with regions := s.regions ++ [R], slots } := by
  cases slot with
  | none => exact ⟨rfl, s.slots, rfl⟩
  | some name => exact ⟨rfl, _, rfl⟩

theorem utility?_onUtility {p : PlacedUtility} {x : Attempt RegionUtility α}
    (hp : s.utility? p.id = some p) (hx : x.Leads (RegionUtility.Fill p.system) p.utility) :
    (onUtility p x s).state.utility? p.id = some { p with utility := (x p.utility).state } :=
  utility?_setUtility hp (RegionUtility.fills_frame hx).1

/-- A region that a utility answers is found as the last one, on the utility as the query left it. -/
theorem region?_produced {p : PlacedUtility} {x : Attempt RegionUtility Region} {R : Region}
    (hp : s.utility? p.id = some p) (hx : x.Leads (RegionUtility.Fill p.system) p.utility)
    (hR : (x p.utility).answer = .ok R) (hid : R.utility = p.id) (slot : Keep) :
    ((onUtility p x >>= fun R => produce R slot) s).answer = .ok (.text R.shown) ∧
      ((onUtility p x >>= fun R => produce R slot) s).state.region? s.regions.length =
        some ⟨s.regions.length, ⟨R, (x p.utility).state⟩, p.system⟩ := by
  have hanswer : (onUtility p x s).answer = .ok R := hR
  have hplaced := utility?_onUtility hp hx
  obtain ⟨hshown, slots, hstate⟩ := produce_outcome R slot (onUtility p x s).state
  rw [answer_bind_of_ok hanswer, state_bind_of_ok hanswer, hstate]
  refine ⟨hshown, region?_eq_some_iff.2 ⟨rfl, List.getElem?_concat_length, ?_⟩⟩
  rw [PlacedRegion.owner, hid]
  exact hplaced

/-! ## Commands to utilities -/

theorem tellUtility_leads {p : PlacedUtility} (hp : s.utility? p.id = some p)
    (c : UtilityCommand) : (tellUtility p c).Leads Touch s := by
  cases c with
  | system slot => exact (keep_leads _ _ _ (by simp)).bind fun _ _ => .pure _
  | tree slot =>
    have hleads := RegionUtility.spanningTree_leads p.system p.utility
    refine (onUtility_leads hp hleads).bind fun t ht => ?_
    have hkept : (RegionUtility.spanningTree p.system p.utility).state.tree.isSome := by
      rw [RegionUtility.spanningTree_state ht]
      rfl
    have htree : (onUtility p (RegionUtility.spanningTree p.system) s).state.HasTree p.id :=
      ⟨_, utility?_onUtility hp hleads, hkept⟩
    exact (keep_leads _ _ _ fun u hu => Ref.treeOf.inj hu ▸ htree).bind fun _ _ => .pure _
  | size => exact .pure _
  | events => exact .pure _
  | reachable =>
    exact (onUtility_leads hp (RegionUtility.reachableStates_leads _ _)).bind fun _ _ => .pure _
  | unreachable =>
    exact (onUtility_leads hp (RegionUtility.unreachableStates_leads _ _)).bind fun _ _ => .pure _
  | «show» => exact .pure _
  | eventIndex event => exact (Leads.ofExcept _).bind fun _ _ => .pure _
  | lookupVector id =>
    refine (onUtility_leads hp (RegionUtility.lookupVector_leads _ _ _)).bind fun found _ => ?_
    cases found <;> exact .pure _
  | reachingVector id =>
    exact (onUtility_leads hp (RegionUtility.reachingVector_leads _ _ _)).bind fun _ _ => .pure _
  | parikhMatrix =>
    exact (onUtility_leads hp (RegionUtility.parikhRows_leads _ _)).bind fun _ _ => .pure _
  | cycleMatrix =>
    exact (onUtility_leads hp (RegionUtility.cycleRows_leads _ _)).bind fun _ _ => .pure _
  | cycleVectors =>
    exact (onUtility_leads hp (RegionUtility.writtenCycleVectors_leads _ _)).bind fun _ _ => .pure _

/-! ## Commands to regions -/

theorem operand_state (x : Operand) (s : Session) : (operand x s).state = s := by
  cases x with
  | value v => rfl
  | slot name =>
    cases h : (refAt name s).answer with
    | error f =>
      rw [operand, state_bind_of_error h]
      exact lookup_state
    | ok r =>
      have hstate : (refAt name s).state = s := lookup_state
      rw [operand, state_bind_of_ok h, hstate, state_bind_of_ok (a := s) rfl]
      cases s.regionOf? r <;> rfl

theorem operand_region {x : Operand} {q : PlacedRegion} (h : (operand x s).answer = .ok (.region q)) :
    s.region? q.id = some q := by
  cases x with
  | value v => cases h
  | slot name =>
    obtain ⟨r, _, h, _⟩ := bind_ok h
    obtain ⟨s', hs', h, _⟩ := bind_ok h
    have hstate : (refAt name s).state = s := lookup_state
    rw [hstate] at hs'
    obtain rfl : s = s' := Except.ok.inj hs'
    cases r with
    | region i =>
      cases hq : s.region? i with
      | none => simp [regionOf?, hq, pure_apply] at h
      | some q' =>
        obtain rfl : q' = q := by simpa [regionOf?, hq, pure_apply] using h
        rw [(region?_eq_some_iff.1 hq).1]
        exact hq
    | _ => cases h

theorem addOperand_leads {p : PlacedRegion} (hp : s.region? p.id = some p) (other : Operand)
    (factor : Value) (slot : Keep) : (addOperand p other factor slot).Leads Touch s := by
  refine Leads.bind_of_state_eq (operand_state other s) fun e _ => ?_
  cases e with
  | region q =>
    refine Leads.bind_of_state_eq rfl fun sum hsum => ?_
    cases sum with
    | none => exact (keep_leads _ _ _ (by simp)).bind fun _ _ => .pure _
    | some T =>
      obtain ⟨_, _, hU⟩ := region?_eq_some_iff.1 hp
      obtain ⟨hutility, hfresh⟩ := Region.addScaled?_fresh hsum
      exact produce_leads slot (by rw [hutility]; exact hU) hfresh
  | _ => exact .fail _

/-- A region that the utility `p` makes, keeping more results, may be added if it is fresh. -/
theorem onUtility_produce_leads {p : PlacedUtility} (hp : s.utility? p.id = some p)
    {q : Attempt RegionUtility Region} (hleads : q.Leads (RegionUtility.Fill p.system) p.utility)
    (hq : ∀ R, (q p.utility).answer = .ok R → R.utility = p.id ∧ R.Fresh p.utility.size) (slot : Keep) :
    (onUtility p q >>= fun R => produce R slot).Leads Touch s := by
  refine (onUtility_leads hp hleads).bind fun R hR => ?_
  obtain ⟨hutility, hfresh⟩ := hq R hR
  have hplaced := utility?_onUtility hp hleads
  rw [← hutility] at hplaced
  refine produce_leads slot hplaced ?_
  rw [RegionUtility.fills_size hleads]
  exact hfresh

theorem tellRegion_leads {p : PlacedRegion} (hp : s.region? p.id = some p) (watched : Bool)
    (c : RegionCommand) : (tellRegion watched p c).Leads Touch s := by
  have hU : s.utility? p.owner.id = some p.owner := (region?_eq_some_iff.1 hp).2.2
  cases c with
  | utility slot => exact (keep_leads _ _ _ (by simp)).bind fun _ _ => .pure _
  | system slot => exact (keep_leads _ _ _ (by simp)).bind fun _ _ => .pure _
  | backward => exact .pure _
  | forward => exact .pure _
  | net => exact .pure _
  | backwardOf event => exact (Leads.ofExcept _).bind fun _ _ => .pure _
  | forwardOf event => exact (Leads.ofExcept _).bind fun _ _ => .pure _
  | netOf event => exact (Leads.ofExcept _).bind fun _ _ => .pure _
  | isPure => exact .pure _
  | isConsistent =>
    exact (onRegion_leads hp (Region.isConsistent_leads _ _)).bind fun _ _ => .pure _
  | evaluate vector => exact (Leads.ofExcept _).bind fun _ _ => .pure _
  | initialMarking =>
    exact (onRegion_leads hp (Region.initialMarking_leads _ _)).bind fun _ _ => .pure _
  | normalMarking =>
    exact (onRegion_leads hp (Region.normalMarking_leads _ _)).bind fun _ _ => .pure _
  | markingOf id =>
    exact (onRegion_leads hp (Region.markingOf_leads _ _ _)).bind fun _ _ => .pure _
  | addScaled other factor slot => exact addOperand_leads hp other factor slot
  | purify slot =>
    exact onUtility_produce_leads hU (Region.purified_leads _ _ watched _)
      (fun _ hR => Region.purified_fresh hR) slot
  | withMarking marking slot =>
    refine Leads.bind_of_state_eq rfl fun R hR => ?_
    obtain ⟨hutility, hfresh⟩ := Region.fresh_of_ok hR
    exact produce_leads slot (by rw [hutility]; exact hU) hfresh
  | showEvents =>
    exact (onRegion_leads hp (Region.initialMarking_leads _ _)).bind fun _ _ => .pure _
  | «show» => exact .pure _

/-! ## Comparisons -/

theorem markingOfRegion_eq {r : RegionId} {p : PlacedRegion} (hp : s.region? r = some p) :
    markingOfRegion r s = onRegion p (Region.initialMarking p.system) s := by
  rw [markingOfRegion, bind_of_ok (state_apply s), hp]
  rfl

theorem markingOfRegion_leads (r : RegionId) (s : Session) :
    (markingOfRegion r).Leads Touch s := by
  refine Leads.bind_of_state_eq rfl fun s' hs' => ?_
  obtain rfl : s = s' := Except.ok.inj hs'
  cases hr : s.region? r with
  | none => exact .pure _
  | some p =>
    obtain ⟨rfl, _⟩ := region?_eq_some_iff.1 hr
    exact onRegion_leads hr (Region.initialMarking_leads _ _)

theorem equalRegions_leads (p q : PlacedRegion) (s : Session) :
    (equalRegions p q).Leads Touch s := by
  unfold equalRegions
  split
  · exact .pure _
  · split
    · exact (markingOfRegion_leads _ _).bind fun _ _ =>
        (markingOfRegion_leads _ _).bind fun _ _ => .pure _
    · exact .pure _

theorem equal_leads (left right : Operand) (s : Session) : (equal left right).Leads Touch s := by
  refine Leads.bind_of_state_eq (operand_state left s) fun a _ => ?_
  refine Leads.bind_of_state_eq (operand_state right s) fun b _ => ?_
  cases a with
  | value v => cases b <;> exact .pure _
  | region p =>
    cases b with
    | region q => exact equalRegions_leads p q s
    | _ => exact .pure _
  | object r => cases b <;> exact .pure _

theorem identity_leads (name : SlotName) (s : Session) : (identity name).Leads Touch s :=
  regionAt_leads fun _ hp =>
    (onRegion_leads hp (Region.initialMarking_leads _ _)).bind fun _ _ => .pure _

theorem distinctRegions_leads (items : List SlotName) (s : Session) :
    (distinctRegions items).Leads Touch s :=
  (Leads.mapM identity_leads items s).bind fun _ _ => .pure _

/-! ## Commands to builders -/

theorem rebuild_leads {b : BuilderId} {B : Builder} (slot : Keep)
    (hB : s.Crafts (s.builders.set b B)) : (rebuild b B slot).Leads Touch s :=
  (Leads.update (.single (.builders hB))).bind fun _ _ =>
    (keep_leads _ _ _ (by simp)).bind fun _ _ => .pure _

theorem tellBuilder_leads {p : PlacedBuilder} (hp : s.builder? p.id = some p) (watched : Bool)
    (c : BuilderCommand) : (tellBuilder watched p c).Leads Touch s := by
  obtain ⟨_, hB, hU⟩ := builder?_eq_some_iff.1 hp
  cases c with
  | weights => exact .pure _
  | «show» => exact .pure _
  | addLoop event weight slot =>
    refine Leads.bind_of_state_eq rfl fun B h => ?_
    obtain ⟨i, k, rfl⟩ := Builder.addLoop?_ok h
    exact rebuild_leads slot (.loop i k hB)
  | addScaled other factor slot =>
    refine Leads.bind_of_state_eq (operand_state other s) fun e he => ?_
    cases e with
    | region q =>
      refine Leads.bind_of_state_eq rfl fun B h => ?_
      obtain ⟨hsame, k, rfl⟩ := Builder.addScaled?_ok h
      exact rebuild_leads slot (.added k hB hU (operand_region he) hsame)
    | _ => exact .fail _
  | purify slot => exact rebuild_leads slot (.purified hB)
  | finish marking slot =>
    refine Leads.bind_of_state_eq rfl fun R hR => ?_
    obtain ⟨hutility, hfresh⟩ := Region.fresh_of_ok hR
    exact produce_leads slot (by rw [hutility]; exact hU) hfresh
  | finishNormal slot =>
    exact onUtility_produce_leads hU (Builder.finishNormal_leads _ _ watched _)
      (fun _ hR => Builder.finishNormal_fresh hR) slot

/-! ## Commands to systems and trees -/

theorem tellTree_leads (t : WrittenTree) (c : TreeCommand) (s : Session) :
    (tellTree t c).Leads Touch s := by
  cases c with
  | root => exact .pure _
  | states => exact .pure _
  | arcs => exact .pure _
  | size => exact .pure _
  | «show» => exact .pure _
  | parentArc id =>
    refine (Leads.ofExcept _).bind fun a _ => ?_
    cases a <;> exact .pure _
  | depth id => exact (Leads.ofExcept _).bind fun _ _ => .pure _
  | rootPath id => exact (Leads.ofExcept _).bind fun _ _ => .pure _
  | has id => exact .pure _
  | treePath u v => exact (Leads.ofExcept _).bind fun _ _ => .pure _
  | graph => exact .pure _
  | extraArcs system =>
    exact systemAt_leads fun _ _ _ => (Leads.ofExcept _).bind fun _ _ => .pure _
  | fundamentalCycles system =>
    exact systemAt_leads fun _ _ _ => (Leads.ofExcept _).bind fun _ _ => .pure _

theorem buildTree_leads {R : Session → Session → Prop} (S : System) (s : Session) :
    S.buildTree.Leads R s :=
  (Leads.ofExcept _).bind fun _ _ => (Leads.note _).bind fun _ _ => .pure _

theorem treeFor_leads {R : Session → Session → Prop} (S : System) (tree : Option SlotName)
    (s : Session) : (treeFor S tree).Leads R s := by
  cases tree with
  | none => exact buildTree_leads S s
  | some name => exact .of_state_eq lookup_state

theorem findBasis_leads (system : SlotName) (tree : Option SlotName) (s : Session) :
    (findBasis system tree).Leads Touch s :=
  systemAt_leads fun _ S _ => (treeFor_leads S tree s).bind fun _ _ =>
    (Leads.ofExcept _).bind fun _ _ => (Leads.note _).bind fun _ _ => .pure _

/-- A query to a system changes nothing, any other command replaces the system by one that comes
from it by changes. -/
theorem tellSystem_cases (i : SystemId) (S : System) (c : SystemCommand) (s : Session) :
    (tellSystem i S c s).state = s ∨
      ∃ S', S.Grows S' ∧ (tellSystem i S c s).state = s.setSystem i S' := by
  cases c with
  | createState id => exact .inr ⟨_, S.createState_leads id, state_bind_pure _ _ _⟩
  | createStates ids => exact .inr ⟨_, S.createStates_leads ids, state_bind_pure _ _ _⟩
  | createArc source target label =>
    exact .inr ⟨_, S.createArc_leads source target label, state_bind_pure _ _ _⟩
  | showArc source target label =>
    exact .inr ⟨_, S.createArc_leads source target label, state_bind_pure _ _ _⟩
  | setInitial id => exact .inr ⟨_, S.setInitial_leads id, state_bind_pure _ _ _⟩
  | initial => exact .inl (state_bind_pure _ _ _)
  | postset id => exact .inl (state_bind_pure _ _ _)
  | preset id => exact .inl (state_bind_pure _ _ _)
  | reachable => exact .inl (state_bind_pure _ _ _)
  | _ => exact .inl rfl

/-! ## New objects -/

theorem produceSystem_leads {S : System} (hS : S.lts.Valid) (slot : Keep) (s : Session) :
    (produceSystem S slot).Leads Touch s := by
  have hadd : (addSystem S).Leads Touch s := .single (.system hS)
  exact hadd.bind fun _ _ => (keep_leads _ _ _ (by simp)).bind fun _ _ => .pure _

theorem produceTree_leads (t : WrittenTree) (slot : Keep) (s : Session) :
    (produceTree t slot).Leads Touch s := by
  have hadd : (addTree t).Leads Touch s := .single (.tree t)
  exact hadd.bind fun _ _ => (keep_leads _ _ _ (by simp)).bind fun _ _ => .pure _

theorem produceBuilder_leads {B : Builder} (slot : Keep) (hB : s.Crafts (s.builders ++ [B])) :
    (produceBuilder B slot).Leads Touch s := by
  have hadd : (addBuilder B).Leads Touch s := .single (.builders hB)
  exact hadd.bind fun _ _ => (keep_leads _ _ _ (by simp)).bind fun _ _ => .pure _

theorem newUtility_leads (watched : Bool) (system : SlotName) (events : Option (List String))
    (slot : Keep) (s : Session) :
    (perform watched (.newUtility system events slot)).Leads Touch s := by
  refine systemAt_leads fun i S hS => ?_
  refine Leads.bind_of_state_eq rfl fun order horder => ?_
  have hadd : (addUtility { system := i, events := order }).Leads Touch s :=
    .single (.utility hS horder)
  exact hadd.bind fun _ _ => (keep_leads _ _ _ (by simp)).bind fun _ _ => .pure _

/-- A utility that is made is the last one, and nothing is kept in it. -/
theorem newUtility_cases (watched : Bool) (system : SlotName) (events : Option (List String))
    (slot : Keep) (s : Session) :
    (perform watched (.newUtility system events slot) s).state = s ∨
      ∃ i S order slots, s.systems[i]? = some S ∧ eventOrder? S.alphabet events = .ok order ∧
        (perform watched (.newUtility system events slot) s).state =
          { s with utilities := s.utilities ++ [{ system := i, events := order }], slots } := by
  have hframe : (systemAt system s).state = s := lookup_state
  cases h : (systemAt system s).answer with
  | error f => exact .inl (by rw [perform, state_bind_of_error h, hframe])
  | ok found =>
    obtain ⟨i, S⟩ := found
    rw [perform, state_bind_of_ok h, hframe]
    cases ho : eventOrder? S.alphabet events with
    | error f => exact .inl (state_bind_of_error (x := ofExcept _) ho)
    | ok order =>
      refine .inr ⟨i, S, order, ?_⟩
      cases slot with
      | none => exact ⟨s.slots, (systemAt_ok h).2, ho, by simp only [ho]; rfl⟩
      | some name => exact ⟨_, (systemAt_ok h).2, ho, by simp only [ho]; rfl⟩

/-! ## All commands -/

theorem perform_leads {c : Command} (hc : ∀ on command, c ≠ .toSystem on command)
    (watched : Bool) (s : Session) : (perform watched c).Leads Touch s := by
  cases c with
  | toSystem on command => exact absurd rfl (hc on command)
  | newSystem name slot => exact produceSystem_leads Lts.valid_empty slot s
  | systemOfArcs triples initial name slot =>
    exact Leads.bind_of_state_eq rfl fun S hS =>
      produceSystem_leads (System.valid_ofArcs hS) slot s
  | buildTree system slot =>
    exact systemAt_leads fun _ S _ => (buildTree_leads S s).bind fun _ _ =>
      produceTree_leads _ slot _
  | newTree root slot => exact produceTree_leads _ slot s
  | cycleBasis system tree => exact findBasis_leads system tree s
  | toTree on command => exact lookup_leads fun _ t _ => tellTree_leads t command s
  | newUtility system events slot => exact newUtility_leads watched system events slot s
  | toUtility on command => exact utilityAt_leads fun p hp => tellUtility_leads hp command
  | newRegion utility backward forward marking slot =>
    refine utilityAt_leads fun p hp => Leads.bind_of_state_eq rfl fun R hR => ?_
    obtain ⟨hutility, hfresh⟩ := Region.fresh_of_ok hR
    exact produce_leads slot (by rw [hutility]; exact hp) hfresh
  | toRegion on command => exact regionAt_leads fun p hp => tellRegion_leads hp watched command
  | equal left right => exact (equal_leads left right s).bind fun _ _ => .pure _
  | same left right => exact lookup_leads fun _ _ _ => lookup_leads fun _ _ _ => .pure _
  | distinct items => exact (distinctRegions_leads items s).bind fun _ _ => .pure _
  | newBuilder utility backward forward slot =>
    refine utilityAt_leads fun p hp => Leads.bind_of_state_eq rfl fun B hB => ?_
    obtain ⟨hid, hsized⟩ := Builder.read?_sized hB
    exact produceBuilder_leads slot (.made (by rw [hid]; exact hp) hsized)
  | builderOfNet utility net slot =>
    refine utilityAt_leads fun p hp => Leads.bind_of_state_eq rfl fun B hB => ?_
    obtain ⟨hid, hsized⟩ := Builder.ofNet?_sized hB
    exact produceBuilder_leads slot (.made (by rw [hid]; exact hp) hsized)
  | builderOfRegion region slot =>
    exact regionAt_leads fun p hp => produceBuilder_leads slot (.copied hp)
  | toBuilder on command =>
    refine lookup_leads fun r p hp => ?_
    cases r with
    | builder b =>
      have hplaced : s.builder? b = some p := hp
      obtain ⟨rfl, _⟩ := builder?_eq_some_iff.1 hplaced
      exact tellBuilder_leads hplaced watched command
    | _ => cases hp

/-- Commands that are not for systems leave all systems as they are. -/
theorem run_leads (watched : Bool) (cs : List Command)
    (hcs : ∀ c ∈ cs, ∀ on command, c ≠ .toSystem on command) (s : Session) :
    Relation.ReflTransGen Touch s (run watched cs s).2 := by
  induction cs generalizing s with
  | nil => exact .refl
  | cons c cs ih =>
    have hfirst : Relation.ReflTransGen Touch s (step watched c s).2 :=
      perform_leads (hcs c List.mem_cons_self) watched s
    exact hfirst.trans (ih (fun d hd => hcs d (List.mem_cons_of_mem c hd)) _)

theorem run_append (watched : Bool) (cs ds : List Command) (s : Session) :
    run watched (cs ++ ds) s =
      ((run watched cs s).1 ++ (run watched ds (run watched cs s).2).1,
        (run watched ds (run watched cs s).2).2) := by
  induction cs generalizing s with
  | nil => rfl
  | cons c cs ih => rw [List.cons_append, run, run, ih, List.cons_append]

/-- A command lets one system grow, or it leaves all systems as they are. -/
theorem perform_cases (watched : Bool) (c : Command) (s : Session) :
    (perform watched c).Leads Touch s ∨ ∃ i S S', s.systems[i]? = some S ∧ S.Grows S' ∧
      (perform watched c s).state = s.setSystem i S' := by
  cases c with
  | toSystem on command =>
    have hframe : (systemAt on s).state = s := lookup_state
    cases h : (systemAt on s).answer with
    | error f =>
      refine .inl (.of_state_eq ?_)
      rw [perform, state_bind_of_error h, hframe]
    | ok found =>
      obtain ⟨i, S⟩ := found
      have hstate : (perform watched (.toSystem on command) s).state =
          (tellSystem i S command s).state := by
        rw [perform, state_bind_of_ok h, hframe]
      rcases tellSystem_cases i S command s with hsame | ⟨S', hgrows, hset⟩
      · exact .inl (.of_state_eq (hstate.trans hsame))
      · exact .inr ⟨i, S, S', (systemAt_ok h).2, hgrows, hstate.trans hset⟩
  | _ => exact .inl (perform_leads (by simp) watched s)

end RegionCalculus.Session
