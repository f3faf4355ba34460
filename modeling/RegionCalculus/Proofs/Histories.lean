import RegionCalculus.Proofs.Steadiness

/-!
# The history of an object

What commands do to one utility and to one region. Whatever is found after a command was there before
it, on a system that has grown or with more results kept; or it is new.

* `Session.ReachedThrough P s`: commands lead to `s`, and `P` holds after each of them.
* `Session.Rooted s`: every utility belongs to a system that exists.
* `Session.Yields s u p`, `Derived s r p`, `Adds s p`: where an object that is found later comes from.
* `Session.step_utility?_cases`, `step_region?_cases`: what a command does, in these terms.
* `RegionUtility.Within S U`: the states of the kept tree and of the kept vectors are states of `S`. It
  holds of every utility and its system (`Session.Reached.within`).
-/

namespace RegionCalculus
set_option autoImplicit false

/-- The events name the labels of the system, and nothing is kept. -/
structure RegionUtility.Blank (S : System) (U : RegionUtility) : Prop where
  order : EventOrder S.lts U.events
  tree : U.tree = none
  vectors : U.vectors = none
  cycles : U.cycles = none

namespace Session

variable {s s' : Session} {u : UtilityId} {r : RegionId}

inductive ReachedThrough (P : Session → Prop) : Session → Prop
  | empty : ReachedThrough P {}
  | step {s : Session} (watched : Bool) (c : Command) :
      ReachedThrough P s → P (step watched c s).2 → ReachedThrough P (step watched c s).2

theorem ReachedThrough.reached {P : Session → Prop} (h : ReachedThrough P s) : s.Reached := by
  induction h with
  | empty => exact .empty
  | step watched c _ _ ih => exact .step watched c ih

theorem Reached.run (hs : s.Reached) (watched : Bool) (cs : List Command) :
    (run watched cs s).2.Reached := by
  induction cs generalizing s with
  | nil => exact hs
  | cons c cs ih => exact ih (.step watched c hs)

/-! ## Rooted sessions -/

def Rooted (s : Session) : Prop := ∀ U ∈ s.utilities, U.system < s.systems.length

theorem Rooted.setUtility (hs : s.Rooted) {p : PlacedUtility} {U : RegionUtility}
    (hp : s.utility? p.id = some p) (hsystem : U.system = p.utility.system) :
    (s.setUtility p.id U).Rooted := by
  intro V hV
  rcases List.mem_or_eq_of_mem_set hV with hV | rfl
  · exact hs V hV
  · rw [hsystem]
    exact hs _ (List.mem_of_getElem? (utility?_eq_some_iff.1 hp).2.1)

theorem Touch.rooted (h : Touch s s') (hs : s.Rooted) : s'.Rooted := by
  cases h with
  | slots _ => exact hs
  | builders _ => exact hs
  | tree t => exact hs
  | system _ =>
    intro U hU
    rw [List.length_append]
    exact Nat.lt_add_right _ (hs U hU)
  | utility hS _ =>
    intro U hU
    rcases List.mem_append.1 hU with hU | hU
    · exact hs U hU
    · rw [List.mem_singleton.1 hU]
      exact (List.getElem?_eq_some_iff.1 hS).1
  | region _ _ => exact hs
  | fill hp hfill => exact hs.setUtility hp hfill.system_eq
  | @derive p h' hp hd =>
    obtain ⟨_, _, hU⟩ := region?_eq_some_iff.1 hp
    exact Rooted.setUtility (s := s.setRegion p.id h'.region) (p := p.owner) hs hU
      (Region.derive_frame hd).2.2.2.1

theorem Rooted.touches (hs : s.Rooted) (h : Relation.ReflTransGen Touch s s') : s'.Rooted := by
  induction h with
  | refl => exact hs
  | tail _ hstep ih => exact hstep.rooted ih

theorem Reached.rooted (h : s.Reached) : s.Rooted := by
  induction h with
  | empty => exact fun _ hU => absurd hU List.not_mem_nil
  | @step s watched c _ ih =>
    rcases perform_cases watched c s with hleads | ⟨i, S, S', _, _, hstate⟩
    · exact ih.touches hleads
    · change (perform watched c s).state.Rooted
      rw [hstate]
      intro U hU
      rw [setSystem, List.length_set]
      exact ih U hU

/-! ## What a touch does to a utility -/

/-- A utility of a system that exists is found in the same way if more systems follow. -/
theorem utility?_append_system (hs : s.Rooted) {S : System} {p : PlacedUtility}
    (hp : ({ s with systems := s.systems ++ [S] } : Session).utility? u = some p) :
    s.utility? u = some p := by
  obtain ⟨hid, hU, hsystem⟩ := utility?_eq_some_iff.1 hp
  have hlt := hs _ (List.mem_of_getElem? hU)
  exact utility?_eq_some_iff.2 ⟨hid, hU, (List.getElem?_append_left hlt).symm.trans hsystem⟩

theorem utility?_setUtility_ne {v : UtilityId} {U : RegionUtility} (hv : v ≠ u) :
    (s.setUtility v U).utility? u = s.utility? u := by
  simp only [utility?, setUtility, List.getElem?_set_ne hv]

/-- The utility was there, and more may be kept in it now. -/
def Kept (s : Session) (u : UtilityId) (p : PlacedUtility) : Prop :=
  ∃ U, s.utility? u = some { p with utility := U } ∧
    Relation.ReflTransGen (RegionUtility.Fill p.system) U p.utility

theorem kept_of_eq {p : PlacedUtility} (hp : s.utility? u = some p) : s.Kept u p :=
  ⟨p.utility, hp, .refl⟩

/-- A utility that is put in its place after it has kept more was there. -/
theorem kept_setUtility {q p : PlacedUtility} {U : RegionUtility} (hq : s.utility? q.id = some q)
    (hfills : Relation.ReflTransGen (RegionUtility.Fill q.system) q.utility U)
    (hp : (s.setUtility q.id U).utility? u = some p) : s.Kept u p := by
  by_cases hu : q.id = u
  · subst hu
    have hplaced := utility?_setUtility hq (RegionUtility.fills_frame hfills).1
    obtain rfl := Option.some.inj (hp.symm.trans hplaced)
    exact ⟨q.utility, hq, hfills⟩
  · rw [utility?_setUtility_ne hu] at hp
    exact kept_of_eq hp

theorem Touch.utility?_cases (h : Touch s s') (hs : s.Rooted) {p : PlacedUtility}
    (hp : s'.utility? u = some p) :
    s.Kept u p ∨ s.utilities.length ≤ u ∧ p.utility.Blank p.system := by
  cases h with
  | slots _ => exact .inl (kept_of_eq hp)
  | builders _ => exact .inl (kept_of_eq hp)
  | tree t => exact .inl (kept_of_eq hp)
  | region _ _ => exact .inl (kept_of_eq hp)
  | system _ => exact .inl (kept_of_eq (utility?_append_system hs hp))
  | @utility i S given events hS ho =>
    obtain ⟨hid, hU, hsystem⟩ := utility?_eq_some_iff.1 hp
    rcases Nat.lt_or_ge u s.utilities.length with hlt | hge
    · rw [List.getElem?_append_left hlt] at hU
      exact .inl (kept_of_eq (utility?_eq_some_iff.2 ⟨hid, hU, hsystem⟩))
    · rw [List.getElem?_append_right hge] at hU
      obtain ⟨_, hnew⟩ := List.getElem?_eq_some_iff.1 hU
      rw [List.getElem_singleton] at hnew
      rw [← hnew] at hsystem ⊢
      obtain rfl : S = p.system := Option.some.inj (hS.symm.trans hsystem)
      exact .inr ⟨hge, eventOrder_of_ok ho, rfl, rfl, rfl⟩
  | fill hq hfill => exact .inl (kept_setUtility hq (.single hfill) hp)
  | @derive q h' hq hd =>
    obtain ⟨_, _, hU⟩ := region?_eq_some_iff.1 hq
    exact .inl (kept_setUtility (s := s.setRegion q.id h'.region) (q := q.owner) hU hd.fills hp)

/-! ## What a touch does to a region -/

/-- The region was there, and more may be kept in it and in its utility now. -/
def Derived (s : Session) (r : RegionId) (p : PlacedRegion) : Prop :=
  ∃ h, s.region? r = some { p with holding := h } ∧
    Relation.ReflTransGen (Holding.Derive p.system) h p.holding

theorem derived_of_eq {p : PlacedRegion} (hp : s.region? r = some p) : s.Derived r p :=
  ⟨p.holding, hp, .refl⟩

/-- A region with a utility that was there was there itself. -/
theorem derived_of_kept {p : PlacedRegion} (hid : p.id = r)
    (hR : s.regions[r]? = some p.holding.region) (h : s.Kept p.owner.id p.owner) :
    s.Derived r p := by
  obtain ⟨U, hU, hfills⟩ := h
  exact ⟨⟨p.holding.region, U⟩, region?_eq_some_iff.2 ⟨hid, hR, hU⟩,
    Relation.ReflTransGen.lift (Holding.mk p.holding.region) (fun _ _ => Holding.Derive.fill) _ _
      hfills⟩

theorem Touch.region?_cases (h : Touch s s') (hs : s.Sound) (hr : s.Rooted) {p : PlacedRegion}
    (hp : s'.region? r = some p) :
    s.Derived r p ∨ s.regions.length ≤ r ∧ p.holding.region.Fresh p.holding.utility.size := by
  obtain ⟨hid, hR, hU⟩ := region?_eq_some_iff.1 hp
  -- Where the regions are the same, the history of the utility decides.
  have hsame : s'.regions = s.regions → s.Derived r p := by
    intro heq
    rw [heq] at hR
    have hlt := hs.placed _ (List.mem_of_getElem? hR)
    rcases h.utility?_cases hr hU with hkept | ⟨hge, _⟩
    · exact derived_of_kept hid hR hkept
    · exact absurd hlt (Nat.not_lt.2 hge)
  cases h with
  | slots _ => exact .inl (hsame rfl)
  | builders _ => exact .inl (hsame rfl)
  | tree t => exact .inl (hsame rfl)
  | system _ => exact .inl (hsame rfl)
  | utility _ _ => exact .inl (hsame rfl)
  | fill _ _ => exact .inl (hsame rfl)
  | @region R q hq hfresh =>
    rcases Nat.lt_or_ge r s.regions.length with hlt | hge
    · rw [List.getElem?_append_left hlt] at hR
      exact .inl (derived_of_eq (region?_eq_some_iff.2 ⟨hid, hR, hU⟩))
    · rw [List.getElem?_append_right hge] at hR
      obtain ⟨_, hnew⟩ := List.getElem?_eq_some_iff.1 hR
      rw [List.getElem_singleton] at hnew
      have hsize : q = p.owner := by
        rw [hnew] at hq
        exact Option.some.inj (hq.symm.trans hU)
      rw [hnew, hsize] at hfresh
      exact .inr ⟨hge, hfresh⟩
  | @derive q h' hq hd =>
    obtain ⟨_, hQ, hQU⟩ := region?_eq_some_iff.1 hq
    obtain ⟨hutility, _, _, hsystem, _⟩ := Region.derive_frame hd
    by_cases hqr : q.id = r
    · subst hqr
      have hplaced := region?_set hq hutility hsystem
      obtain rfl := Option.some.inj (hp.symm.trans hplaced)
      exact .inl ⟨q.holding, hq, .single hd⟩
    · have hR' : s.regions[r]? = some p.holding.region := by
        rw [← hR]
        exact (List.getElem?_set_ne hqr).symm
      have hkept := kept_setUtility (s := s.setRegion q.id h'.region) (q := q.owner) hQU hd.fills hU
      exact .inl (derived_of_kept hid hR' hkept)

/-! ## What a command does -/

/-- The utility was there or is new, and more may be kept in it now. -/
def Yields (s : Session) (u : UtilityId) (p : PlacedUtility) : Prop :=
  s.Kept u p ∨ ∃ U, U.Blank p.system ∧
    Relation.ReflTransGen (RegionUtility.Fill p.system) U p.utility

theorem yields_of_touches (h : Relation.ReflTransGen Touch s s') (hs : s.Rooted)
    {p : PlacedUtility} (hp : s'.utility? u = some p) : s.Yields u p := by
  induction h generalizing p with
  | refl => exact .inl (kept_of_eq hp)
  | tail hprev hstep ih =>
    rcases hstep.utility?_cases (hs.touches hprev) hp with ⟨U, hU, hfills⟩ | ⟨_, hblank⟩
    · rcases ih hU with ⟨V, hV, hfills'⟩ | ⟨V, hV, hfills'⟩
      · exact .inl ⟨V, hV, hfills'.trans hfills⟩
      · exact .inr ⟨V, hV, hfills'.trans hfills⟩
    · exact .inr ⟨p.utility, hblank, .refl⟩

/-- The region is new, and more may be kept in it and in its utility now. -/
def Adds (s : Session) (p : PlacedRegion) : Prop :=
  ∃ h, h.region.Fresh h.utility.size ∧ s.Yields p.owner.id { p.owner with utility := h.utility } ∧
    Relation.ReflTransGen (Holding.Derive p.system) h p.holding

theorem touches_region?_cases (h : Relation.ReflTransGen Touch s s') (hs : s.Sound) (hr : s.Rooted)
    {p : PlacedRegion} (hp : s'.region? r = some p) : s.Derived r p ∨ s.Adds p := by
  induction h generalizing p with
  | refl => exact .inl (derived_of_eq hp)
  | tail hprev hstep ih =>
    rcases hstep.region?_cases (hs.touches hprev) (hr.touches hprev) hp with
      ⟨h, hh, hd⟩ | ⟨_, hfresh⟩
    · rcases ih hh with ⟨h₀, hh₀, hd₀⟩ | ⟨h₀, hfresh, hyields, hd₀⟩
      · exact .inl ⟨h₀, hh₀, hd₀.trans hd⟩
      · have hutility := (Region.derives_frame hd).1
        refine .inr ⟨h₀, hfresh, ?_, hd₀.trans hd⟩
        rw [PlacedRegion.owner, hutility]
        exact hyields
    · exact .inr ⟨p.holding, hfresh,
        yields_of_touches (hprev.tail hstep) hr (region?_eq_some_iff.1 hp).2.2, .refl⟩

theorem systemOf_eq_some_iff {S : System} : s.systemOf u = some S ↔
    ∃ U, s.utilities[u]? = some U ∧ s.systems[U.system]? = some S := by
  rw [systemOf, Option.map_eq_some_iff]
  constructor
  · rintro ⟨p, hp, rfl⟩
    obtain ⟨_, hU, hsystem⟩ := utility?_eq_some_iff.1 hp
    exact ⟨p.utility, hU, hsystem⟩
  · rintro ⟨U, hU, hsystem⟩
    exact ⟨⟨u, U, S⟩, utility?_eq_some_iff.2 ⟨rfl, hU, hsystem⟩, rfl⟩

theorem systemOf_setUtility {p : PlacedUtility} {U : RegionUtility} {S : System}
    (hp : s.utility? p.id = some p) (hsystem : U.system = p.utility.system)
    (hS : s.systemOf u = some S) : (s.setUtility p.id U).systemOf u = some S := by
  by_cases hu : p.id = u
  · subst hu
    rw [systemOf, utility?_setUtility hp hsystem]
    rw [systemOf, hp] at hS
    exact hS
  · rw [systemOf, utility?_setUtility_ne hu]
    exact hS

/-- A touch leaves the systems of utilities as they are. -/
theorem Touch.systemOf_eq (h : Touch s s') {S : System} (hS : s.systemOf u = some S) :
    s'.systemOf u = some S := by
  obtain ⟨V, hV, hsystem⟩ := systemOf_eq_some_iff.1 hS
  cases h with
  | slots _ => exact hS
  | builders _ => exact hS
  | tree t => exact hS
  | region _ _ => exact hS
  | system _ =>
    obtain ⟨hlt, _⟩ := List.getElem?_eq_some_iff.1 hsystem
    exact systemOf_eq_some_iff.2 ⟨V, hV, (List.getElem?_append_left hlt).trans hsystem⟩
  | utility _ _ =>
    obtain ⟨hlt, _⟩ := List.getElem?_eq_some_iff.1 hV
    exact systemOf_eq_some_iff.2 ⟨V, (List.getElem?_append_left hlt).trans hV, hsystem⟩
  | fill hq hfill => exact systemOf_setUtility hq hfill.system_eq hS
  | @derive q h' hq hd =>
    obtain ⟨_, _, hU⟩ := region?_eq_some_iff.1 hq
    exact systemOf_setUtility (s := s.setRegion q.id h'.region) (p := q.owner) hU
      (Region.derive_frame hd).2.2.2.1 hS

theorem systemOf_of_touches (h : Relation.ReflTransGen Touch s s') {S : System}
    (hS : s.systemOf u = some S) : s'.systemOf u = some S := by
  induction h with
  | refl => exact hS
  | tail _ hstep ih => exact hstep.systemOf_eq ih

theorem utility?_setSystem {i : SystemId} {S S' : System} (hS : s.systems[i]? = some S)
    (hgrows : S.Grows S') {p : PlacedUtility} (hp : (s.setSystem i S').utility? u = some p) :
    ∃ T, s.utility? u = some { p with system := T } ∧ T.Grows p.system := by
  obtain ⟨hid, hU, hsystem⟩ := utility?_eq_some_iff.1 hp
  by_cases hi : i = p.utility.system
  · subst hi
    obtain ⟨hlt, _⟩ := List.getElem?_eq_some_iff.1 hS
    rw [setSystem, List.getElem?_set_self hlt] at hsystem
    obtain rfl := Option.some.inj hsystem
    exact ⟨S, utility?_eq_some_iff.2 ⟨hid, hU, hS⟩, hgrows⟩
  · rw [setSystem, List.getElem?_set_ne hi] at hsystem
    exact ⟨p.system, utility?_eq_some_iff.2 ⟨hid, hU, hsystem⟩, .refl⟩

/-- A utility that is found after a command was there with fewer results kept, is new, or was there
on a system that has grown since. -/
theorem step_utility?_cases (hs : s.Reached) (watched : Bool) (c : Command) {p : PlacedUtility}
    (hp : (step watched c s).2.utility? u = some p) :
    s.Yields u p ∨ ∃ S, s.utility? u = some { p with system := S } ∧ S.Grows p.system := by
  rcases perform_cases watched c s with hleads | ⟨i, S, S', hS, hgrows, hstate⟩
  · exact .inl (yields_of_touches hleads hs.rooted hp)
  · have hafter : (step watched c s).2 = s.setSystem i S' := hstate
    rw [hafter] at hp
    exact .inr (utility?_setSystem hS hgrows hp)

/-- The same of a region. -/
theorem step_region?_cases (hs : s.Reached) (watched : Bool) (c : Command) {p : PlacedRegion}
    (hp : (step watched c s).2.region? r = some p) :
    s.Derived r p ∨ s.Adds p ∨
      ∃ S, s.region? r = some { p with system := S } ∧ S.Grows p.system := by
  rcases perform_cases watched c s with hleads | ⟨i, S, S', hS, hgrows, hstate⟩
  · exact (touches_region?_cases hleads hs.sound hs.rooted hp).imp_right .inl
  · have hafter : (step watched c s).2 = s.setSystem i S' := hstate
    rw [hafter] at hp
    obtain ⟨hid, hR, hU⟩ := region?_eq_some_iff.1 hp
    obtain ⟨T, hT, hTgrows⟩ := utility?_setSystem hS hgrows hU
    exact .inr (.inr ⟨T, region?_eq_some_iff.2 ⟨hid, hR, hT⟩, hTgrows⟩)

end Session

/-! ## Systems that grow -/

theorem System.Change.states_subset {S S' : System} (h : S.Change S') {k : Key}
    (hk : k ∈ S.lts.states) : k ∈ S'.lts.states := by
  cases h with
  | @state v counter _ =>
    have hlts : System.lts { S.addState v with counter } =
        { S.lts with states := S.lts.states ++ [v.key] } := lts_addState S v
    rw [hlts]
    exact List.mem_append_left _ hk
  | arc _ _ _ =>
    rw [lts_addArc]
    split <;> exact hk
  | start _ => exact hk

theorem System.Grows.states_subset {S S' : System} (h : S.Grows S') {k : Key}
    (hk : k ∈ S.lts.states) : k ∈ S'.lts.states := by
  induction h with
  | refl => exact hk
  | tail _ hstep ih => exact hstep.states_subset ih

/-! ## Kept results name states of the system -/

/-- Every entry of a table belongs to the root or to the target of a tree arc. -/
theorem mem_keys_of_foldlM {ι : Type} [DecidableEq ι] {events : List String} {as : List (Arc ι)}
    {table table' : List (ι × List Int)} (h : as.foldlM (extendTable events) table = .ok table') :
    ∀ e ∈ table', e ∈ table ∨ e.1 ∈ as.map Arc.target := by
  induction as generalizing table with
  | nil =>
    obtain rfl : table = table' := Except.ok.inj h
    exact fun e he => .inl he
  | cons a as ih =>
    rw [List.foldlM_cons] at h
    obtain ⟨mid, hmid, hrest⟩ := except_bind_eq_ok.1 h
    obtain ⟨w, rfl⟩ : ∃ w, mid = table ++ [(a.target, w)] := by
      unfold extendTable at hmid
      split at hmid
      · cases hmid
      · split at hmid
        · cases hmid
        · exact ⟨_, (Except.ok.inj hmid).symm⟩
    intro e he
    rcases ih hrest e he with hmem | htarget
    · rcases List.mem_append.1 hmem with hold | hnew
      · exact .inl hold
      · rw [List.mem_singleton.1 hnew]
        exact .inr List.mem_cons_self
    · exact .inr (List.mem_cons_of_mem _ htarget)

theorem Tree.key_mem_of_parikhTable? {ι : Type} [DecidableEq ι] {events : List String} {t : Tree ι}
    {table : List (ι × List Int)} (h : t.parikhTable? events = .ok table) {e : ι × List Int}
    (he : e ∈ table) : e.1 ∈ t.states := by
  rcases mem_keys_of_foldlM h e he with hroot | htarget
  · rw [List.mem_singleton.1 hroot]
    exact List.mem_cons_self
  · exact List.mem_cons_of_mem _ htarget

namespace RegionUtility

variable {S S' : System} {U U' : RegionUtility}

structure Within (S : System) (U : RegionUtility) : Prop where
  tree : ∀ t, U.tree = some t → ∀ k ∈ t.tree.states, k ∈ S.lts.states
  vectors : ∀ table, U.vectors = some table → ∀ e ∈ table, e.1 ∈ S.lts.states

theorem Blank.within (h : Blank S U) : Within S U where
  tree := fun t ht => by simp [h.tree] at ht
  vectors := fun table ht => by simp [h.vectors] at ht

theorem Within.grows (h : Within S U) (hgrows : S.Grows S') : Within S' U where
  tree := fun t ht k hk => hgrows.states_subset (h.tree t ht k hk)
  vectors := fun table ht e he => hgrows.states_subset (h.vectors table ht e he)

theorem Fill.within (h : Fill S U U') (hS : S.lts.Valid) (hU : Within S U) : Within S U' := by
  cases h with
  | @tree t _ ht =>
    refine ⟨fun t' ht' k hk => ?_, hU.vectors⟩
    obtain rfl := Option.some.inj ht'
    obtain ⟨init, hinit, hbuilt⟩ := except_bind_eq_ok.1 ht
    rw [← Except.ok.inj hbuilt] at hk
    exact ((Lts.mem_states_spanningTree hS).1 hk).mem_states hS (System.initial_mem hS hinit)
  | @vectors t table htree _ htable =>
    refine ⟨hU.tree, fun table' ht' e he => ?_⟩
    rw [← Option.some.inj ht'] at he
    exact hU.tree t htree _ (Tree.key_mem_of_parikhTable? htable he)
  | cycles _ _ _ _ _ => exact ⟨hU.tree, hU.vectors⟩

theorem Within.fills (hU : Within S U) (hS : S.lts.Valid)
    (h : Relation.ReflTransGen (Fill S) U U') : Within S U' := by
  induction h with
  | refl => exact hU
  | tail _ hstep ih => exact hstep.within hS ih

end RegionUtility

/-! ## All kept results -/

namespace Session

variable {s : Session} {u : UtilityId} {p : PlacedUtility}

theorem Yields.within (h : s.Yields u p)
    (hs : ∀ u p, s.utility? u = some p → p.utility.Within p.system) (hS : p.system.lts.Valid) :
    p.utility.Within p.system := by
  rcases h with ⟨U, hU, hfills⟩ | ⟨U, hblank, hfills⟩
  · exact (hs u _ hU).fills hS hfills
  · exact hblank.within.fills hS hfills

theorem Reached.valid (hs : s.Reached)
    (hp : s.utility? u = some p) : p.system.lts.Valid :=
  hs.sound.valid _ (List.mem_of_getElem? (utility?_eq_some_iff.1 hp).2.2)

theorem Reached.within (hs : s.Reached) :
    ∀ u p, s.utility? u = some p → p.utility.Within p.system := by
  induction hs with
  | empty => exact fun u p hp => by cases hp
  | step watched c hprev ih =>
    intro u p hp
    rcases step_utility?_cases hprev watched c hp with hyields | ⟨S, hold, hgrows⟩
    · exact hyields.within ih ((hprev.step watched c).valid hp)
    · exact (ih u _ hold).grows hgrows

end Session

end RegionCalculus
