import RegionCalculus.Proofs.Durability

/-!
# What settles a comparison

An answer to whether two regions are equal is never taken back. What it rests on is there for good once it
was given: that they are one region, that their utilities or weights differ, or the markings of both.

* `Session.PlacedRegion.Retains p p'`: what stays of a region, with its initial marking; `Later.retains`.
* `Session.Verdict p q b`: what is known of `p` and `q` decides that they are equal, or that they are not.
* `Session.Verdict.answer`, `verdict_of_answer`: comparisons are answered by verdicts, and leave one.
* `Session.Compared s i j b`: on the way to `s`, regions `i` and `j` were compared, with the answer `b`.
* `Session.Equates s i j b`: in `s`, comparing regions `i` and `j` is answered by `b`.
* `Session.equal_of_identities`: equality of regions is equality of what identifies them.
-/

namespace RegionCalculus.Session
set_option autoImplicit false

open Attempt

variable {s s' : Session} {r i j : RegionId} {p p' q q' : PlacedRegion} {b : Bool}

/-! ## Markings stay -/

/-- What stays of a region, the initial marking included once it is given or derived. -/
structure PlacedRegion.Retains (p p' : PlacedRegion) : Prop extends p.Becomes p' where
  marking : ∀ m, p.holding.region.marking? = some m → p'.holding.region.marking? = some m

namespace PlacedRegion.Retains

theorem refl (p : PlacedRegion) : p.Retains p where
  toBecomes := .refl p
  marking := fun _ h => h

theorem trans {p'' : PlacedRegion} (h : p.Retains p') (h' : p'.Retains p'') : p.Retains p'' where
  toBecomes := h.toBecomes.trans h'.toBecomes
  marking := fun m hm => h'.marking m (h.marking m hm)

theorem derives {h : Holding} (hd : Relation.ReflTransGen (Holding.Derive p.system) p.holding h) :
    p.Retains { p with holding := h } where
  toBecomes := .derives hd
  marking := fun m hm => by
    induction hd with
    | refl => exact hm
    | tail _ hstep ih => exact hstep.marking?_eq ih

end PlacedRegion.Retains

/-- A touch only derives more from a region that is there. -/
theorem Touch.region?_derives (h : Touch s s') (hs : s.Sound) (hr : s.Rooted)
    (hp : s.region? r = some p) : ∃ h', s'.region? r = some { p with holding := h' } ∧
      Relation.ReflTransGen (Holding.Derive p.system) p.holding h' := by
  obtain ⟨p', hp', _⟩ := h.region? hs hr hp
  rcases h.region?_cases hs hr hp' with ⟨h₀, hh₀, hd⟩ | ⟨hge, _⟩
  · obtain rfl := Option.some.inj (hp.symm.trans hh₀)
    exact ⟨p'.holding, hp', hd⟩
  · obtain ⟨hlt, _⟩ := List.getElem?_eq_some_iff.1 (region?_eq_some_iff.1 hp).2.1
    exact absurd hlt (Nat.not_lt.2 hge)

theorem touches_region?_derives (h : Relation.ReflTransGen Touch s s') (hs : s.Sound)
    (hr : s.Rooted) (hp : s.region? r = some p) :
    ∃ h', s'.region? r = some { p with holding := h' } ∧
      Relation.ReflTransGen (Holding.Derive p.system) p.holding h' := by
  induction h with
  | refl => exact ⟨p.holding, hp, .refl⟩
  | tail hprev hstep ih =>
    obtain ⟨h, hh, hd⟩ := ih
    obtain ⟨h', hh', hd'⟩ := hstep.region?_derives (hs.touches hprev) (hr.touches hprev) hh
    exact ⟨h', hh', hd.trans hd'⟩

theorem step_retains (hs : s.Reached) (watched : Bool) (c : Command) (hp : s.region? r = some p) :
    ∃ p', (step watched c s).2.region? r = some p' ∧ p.Retains p' := by
  rcases perform_cases watched c s with hleads | ⟨i, S, S', hS, hgrows, hstate⟩
  · obtain ⟨h, hh, hd⟩ := touches_region?_derives hleads hs.sound hs.rooted hp
    exact ⟨_, hh, .derives hd⟩
  · have hafter : (step watched c s).2 = s.setSystem i S' := hstate
    obtain ⟨hid, hR, hU⟩ := region?_eq_some_iff.1 hp
    obtain ⟨T, hT, _⟩ := utility?_of_setSystem hS hgrows hU
    have hp' : (s.setSystem i S').region? r = some { p with system := T } :=
      region?_eq_some_iff.2 ⟨hid, hR, hT⟩
    exact ⟨_, hafter ▸ hp', .grow T, fun _ hm => hm⟩

theorem Later.retains (h : s.Later s') (hs : s.Reached) (hp : s.region? r = some p) :
    ∃ p', s'.region? r = some p' ∧ p.Retains p' := by
  apply h.keeps hs
  case hstart => exact ⟨p, hp, .refl p⟩
  case hstep =>
    rintro s watched c hs ⟨q, hq, hretains⟩
    obtain ⟨p', hp', hretains'⟩ := step_retains hs watched c hq
    exact ⟨p', hp', hretains.trans hretains'⟩

/-! ## Verdicts -/

/-- What is known of two regions decides whether they are equal: they are one region, or their utilities
or weights differ, or both have their markings. -/
inductive Verdict (p q : PlacedRegion) : Bool → Prop
  | same : q.id = p.id → Verdict p q true
  | apart : q.id ≠ p.id → ¬(q.holding.region.utility = p.holding.region.utility ∧
      q.holding.region.weights = p.holding.region.weights) → Verdict p q false
  | markings {m n : Int} {b : Bool} : q.id ≠ p.id →
      q.holding.region.utility = p.holding.region.utility →
      q.holding.region.weights = p.holding.region.weights → q.holding.region.marking? = some m →
      p.holding.region.marking? = some n → b = decide (m = n) → Verdict p q b

theorem PlacedRegion.initialAnswer_of_some {m : Int} (hm : p.holding.region.marking? = some m) :
    p.initialAnswer = .ok m := by
  rw [PlacedRegion.initialAnswer, Region.initialMarking_of_some hm]

theorem Verdict.retains (h : Verdict p q b) (hp : p.Retains p') (hq : q.Retains q') :
    Verdict p' q' b := by
  have hid : q'.id = p'.id ↔ q.id = p.id := by rw [hp.id, hq.id]
  cases h with
  | same heq => exact .same (hid.2 heq)
  | apart hne hdiffer =>
    refine .apart (mt hid.1 hne) ?_
    rw [hp.utility, hq.utility, hp.weights, hq.weights]
    exact hdiffer
  | markings hne hutility hweights hm hn hb =>
    refine .markings (mt hid.1 hne) ?_ ?_ (hq.marking _ hm) (hp.marking _ hn) hb
    · rw [hp.utility, hq.utility, hutility]
    · rw [hp.weights, hq.weights, hweights]

theorem Verdict.symm (h : Verdict p q b) : Verdict q p b := by
  cases h with
  | same heq => exact .same heq.symm
  | apart hne hdiffer => exact .apart hne.symm fun h => hdiffer ⟨h.1.symm, h.2.symm⟩
  | markings hne hutility hweights hm hn hb =>
    exact .markings hne.symm hutility.symm hweights.symm hn hm (by rw [hb, decide_eq_decide, eq_comm])

/-- Equal regions that are not one region have the same marking. -/
theorem Verdict.cases_true (h : Verdict p q true) : q.id = p.id ∨
    q.holding.region.utility = p.holding.region.utility ∧
      q.holding.region.weights = p.holding.region.weights ∧
      ∃ m, q.holding.region.marking? = some m ∧ p.holding.region.marking? = some m := by
  cases h with
  | same heq => exact .inl heq
  | markings _ hutility hweights hm hn hb =>
    obtain rfl := of_decide_eq_true hb.symm
    exact .inr ⟨hutility, hweights, _, hm, hn⟩

theorem Verdict.trans (h : Verdict p q true) (h' : Verdict q q' true)
    (hp : s.region? p.id = some p) (hq : s.region? q.id = some q)
    (hq' : s.region? q'.id = some q') : Verdict p q' true := by
  by_cases hid : q'.id = p.id
  · exact .same hid
  rcases h.cases_true with heq | ⟨hutility, hweights, m, hm, hn⟩
  · rw [heq] at hq
    obtain rfl := Option.some.inj (hp.symm.trans hq)
    exact h'
  · rcases h'.cases_true with heq | ⟨hutility', hweights', n, hm', hn'⟩
    · rw [heq] at hq'
      obtain rfl := Option.some.inj (hq.symm.trans hq')
      exact h
    · obtain rfl : m = n := Option.some.inj (hm.symm.trans hn')
      exact .markings hid (hutility'.trans hutility) (hweights'.trans hweights) hm' hn (by simp)

theorem Verdict.answer (h : Verdict p q b) (hp : s.region? p.id = some p)
    (hq : s.region? q.id = some q) : (equalRegions p q s).answer = .ok b := by
  cases h with
  | same heq => rw [equalRegions, if_pos heq]; rfl
  | apart hne hdiffer => rw [equalRegions, if_neg hne, if_neg hdiffer]; rfl
  | markings hne hutility hweights hm hn hb =>
    rw [equalRegions, if_neg hne, if_pos ⟨hutility, hweights⟩,
      two_markings hp hq hne hutility hweights, PlacedRegion.initialAnswer_of_some hm,
      PlacedRegion.initialAnswer_of_some hn, hb]
    rfl

/-- A marking that was answered is kept. -/
theorem markingOfRegion_ok (hp : s.region? r = some p) {m : Int}
    (hm : (markingOfRegion r s).answer = .ok m) :
    ∃ p', (markingOfRegion r s).state.region? r = some p' ∧ p.Retains p' ∧
      p'.holding.region.marking? = some m := by
  obtain ⟨rfl, _⟩ := region?_eq_some_iff.1 hp
  rw [markingOfRegion_eq hp] at hm ⊢
  have hleads := Region.initialMarking_leads p.system p.holding
  obtain ⟨hutility, _, _, hsystem, _⟩ := Region.derives_frame hleads
  exact ⟨_, region?_set hp hutility hsystem, .derives hleads, (Region.initialMarking_state hm).1⟩

/-- An answer is a verdict from then on. -/
theorem verdict_of_answer (hs : s.Reached) (hp : s.region? p.id = some p)
    (hq : s.region? q.id = some q) (h : (equalRegions p q s).answer = .ok b) :
    ∃ p' q', (equalRegions p q s).state.region? p.id = some p' ∧
      (equalRegions p q s).state.region? q.id = some q' ∧ Verdict p' q' b := by
  unfold equalRegions at h ⊢
  by_cases hid : q.id = p.id
  · rw [if_pos hid] at h ⊢
    obtain rfl := Except.ok.inj h
    exact ⟨p, q, hp, hq, .same hid⟩
  rw [if_neg hid] at h ⊢
  by_cases hsame : q.holding.region.utility = p.holding.region.utility ∧
      q.holding.region.weights = p.holding.region.weights
  · rw [if_pos hsame] at h ⊢
    obtain ⟨m, hm, h, hstate⟩ := bind_ok h
    obtain ⟨n, hn, h, hstate'⟩ := bind_ok h
    have hfirst := markingOfRegion_leads q.id s
    obtain ⟨q₁, hq₁, hretains, hmarking⟩ := markingOfRegion_ok hq hm
    obtain ⟨h₁, hp₁, hd⟩ := touches_region?_derives hfirst hs.sound hs.rooted hp
    obtain ⟨p₂, hp₂, hretains', hmarking'⟩ := markingOfRegion_ok hp₁ hn
    obtain ⟨h₂, hq₂, hd'⟩ := touches_region?_derives
      (markingOfRegion_leads p.id (markingOfRegion q.id s).state)
      (hs.sound.touches hfirst) (hs.rooted.touches hfirst) hq₁
    have hpast : p.Retains p₂ := (PlacedRegion.Retains.derives hd).trans hretains'
    have hpast' : q.Retains _ := hretains.trans (.derives hd')
    rw [hstate, hstate']
    refine ⟨p₂, _, hp₂, hq₂, .markings (m := m) (n := n) ?_ ?_ ?_ ?_ hmarking' (Except.ok.inj h).symm⟩
    · rw [hpast.id, hpast'.id]
      exact hid
    · rw [hpast.utility, hpast'.utility, hsame.1]
    · rw [hpast.weights, hpast'.weights, hsame.2]
    · exact (PlacedRegion.Retains.derives hd').marking m hmarking
  · rw [if_neg hsame] at h ⊢
    obtain rfl := Except.ok.inj h
    exact ⟨p, q, hp, hq, .apart hid hsame⟩

/-! ## Comparisons -/

theorem step_equal {left right : SlotName} (hleft : s.regionIn? left = some p)
    (hright : s.regionIn? right = some q) (watched : Bool) :
    (step watched (.equal (.slot left) (.slot right)) s).1.answer =
        (equalRegions p q s).answer.map .truth ∧
      (step watched (.equal (.slot left) (.slot right)) s).2 = (equalRegions p q s).state := by
  have hequal : equal (.slot left) (.slot right) s = equalRegions p q s := by
    rw [equal, bind_of_ok (operand_slot hleft), bind_of_ok (operand_slot hright)]
    rfl
  have hstate : (step watched (.equal (.slot left) (.slot right)) s).2 =
      (equal (.slot left) (.slot right) s).state := state_bind_pure _ _ _
  exact ⟨equal_slots hleft hright watched, hstate.trans (congrArg Outcome.state hequal)⟩

/-- The slot refers to region `i`. -/
def Names (s : Session) (name : SlotName) (i : RegionId) : Prop :=
  ∃ p, s.regionIn? name = some p ∧ p.id = i

/-- On the way to `s`, the regions `i` and `j` were compared in their slots, with the answer `b`. -/
def Compared (s : Session) (i j : RegionId) (b : Bool) : Prop :=
  ∃ s₀ watched left right, s₀.Reached ∧ s₀.Names left i ∧ s₀.Names right j ∧
    (step watched (.equal (.slot left) (.slot right)) s₀).1.answer = .ok (.truth b) ∧
    (step watched (.equal (.slot left) (.slot right)) s₀).2.Later s

/-- In whichever slots the regions `i` and `j` stand, comparing them is answered by `b`. -/
def Equates (s : Session) (i j : RegionId) (b : Bool) : Prop :=
  ∀ watched left right, s.Names left i → s.Names right j →
    (step watched (.equal (.slot left) (.slot right)) s).1.answer = .ok (.truth b)

/-- What is known of the regions `i` and `j` decides that they are equal, or that they are not. -/
def Decided (s : Session) (i j : RegionId) (b : Bool) : Prop :=
  ∃ p q, s.region? i = some p ∧ s.region? j = some q ∧ Verdict p q b

theorem Decided.later (h : s.Decided i j b) (hs : s.Reached) (hlater : s.Later s') :
    s'.Decided i j b := by
  obtain ⟨p, q, hp, hq, hverdict⟩ := h
  obtain ⟨p', hp', hretains⟩ := hlater.retains hs hp
  obtain ⟨q', hq', hretains'⟩ := hlater.retains hs hq
  exact ⟨p', q', hp', hq', hverdict.retains hretains hretains'⟩

theorem Compared.decided (h : s.Compared i j b) : s.Decided i j b := by
  obtain ⟨s₀, watched, left, right, hs, ⟨p, hleft, rfl⟩, ⟨q, hright, rfl⟩, hanswer, hlater⟩ := h
  obtain ⟨hstep, hstate⟩ := step_equal hleft hright watched
  rw [hstep] at hanswer
  have hequal : (equalRegions p q s₀).answer = .ok b := map_ok (fun _ _ => Answer.truth.inj) hanswer
  obtain ⟨p', q', hp', hq', hverdict⟩ :=
    verdict_of_answer hs (region?_of_regionIn? hleft) (region?_of_regionIn? hright) hequal
  have hafter : (step watched (.equal (.slot left) (.slot right)) s₀).2.Decided p.id q.id b := by
    rw [hstate]
    exact ⟨p', q', hp', hq', hverdict⟩
  exact hafter.later (.step watched _ hs) hlater

theorem Decided.equates (h : s.Decided i j b) : s.Equates i j b := by
  obtain ⟨p, q, hp, hq, hverdict⟩ := h
  rintro watched left right ⟨p', hleft, rfl⟩ ⟨q', hright, rfl⟩
  obtain rfl := Option.some.inj (hp.symm.trans (region?_of_regionIn? hleft))
  obtain rfl := Option.some.inj (hq.symm.trans (region?_of_regionIn? hright))
  rw [(step_equal hleft hright watched).1, hverdict.answer hp hq]
  rfl

theorem Decided.trans {k : RegionId} (h : s.Decided i j true) (h' : s.Decided j k true) :
    s.Decided i k true := by
  obtain ⟨p, q, hp, hq, hverdict⟩ := h
  obtain ⟨q₁, q', hq₁, hq', hverdict'⟩ := h'
  obtain rfl := Option.some.inj (hq.symm.trans hq₁)
  obtain ⟨rfl, _⟩ := region?_eq_some_iff.1 hp
  obtain ⟨rfl, _⟩ := region?_eq_some_iff.1 hq
  obtain ⟨rfl, _⟩ := region?_eq_some_iff.1 hq'
  exact ⟨p, q', hp, hq', hverdict.trans hverdict' hp hq hq'⟩

/-! ## Both ways round -/

theorem PlacedRegion.initialAnswer_of_none (hm : p.holding.region.marking? = none) :
    p.initialAnswer = p.normalAnswer := Region.initialMarking_answer_of_none hm

theorem PlacedRegion.normalAnswer_congr (hsystem : q.system = p.system)
    (hutility : q.holding.utility = p.holding.utility)
    (hweights : q.holding.region.weights = p.holding.region.weights) :
    q.normalAnswer = p.normalAnswer := by
  rw [PlacedRegion.normalAnswer, PlacedRegion.normalAnswer, Region.normalMarking_eq,
    Region.normalMarking_eq, Region.ask_answer, Region.ask_answer, hsystem, hutility, hweights]

/-- Regions with the same weights fail alike where a marking cannot be derived. -/
theorem initialAnswer_error_eq (hp : s.region? p.id = some p) (hq : s.region? q.id = some q)
    (hutility : q.holding.region.utility = p.holding.region.utility)
    (hweights : q.holding.region.weights = p.holding.region.weights) {f g : Fault}
    (hf : p.initialAnswer = .error f) (hg : q.initialAnswer = .error g) : f = g := by
  have hnone : ∀ {p : PlacedRegion} {f : Fault}, p.initialAnswer = .error f →
      p.holding.region.marking? = none := by
    intro p f hf
    cases hm : p.holding.region.marking? with
    | none => rfl
    | some m =>
      rw [PlacedRegion.initialAnswer_of_some hm] at hf
      cases hf
  obtain ⟨hU, hS⟩ := owner_eq (region?_eq_some_iff.1 hp).2.2 hq hutility
  dsimp only at hU hS
  rw [PlacedRegion.initialAnswer_of_none (hnone hf)] at hf
  rw [PlacedRegion.initialAnswer_of_none (hnone hg)] at hg
  exact Except.error.inj
    (hf.symm.trans ((PlacedRegion.normalAnswer_congr hS hU hweights).symm.trans hg))

theorem equalRegions_comm (hp : s.region? p.id = some p) (hq : s.region? q.id = some q) :
    (equalRegions q p s).answer = (equalRegions p q s).answer := by
  by_cases hid : q.id = p.id
  · rw [equalRegions, equalRegions, if_pos hid, if_pos hid.symm]
  by_cases hsame : q.holding.region.utility = p.holding.region.utility ∧
      q.holding.region.weights = p.holding.region.weights
  · obtain ⟨hutility, hweights⟩ := hsame
    rw [equalRegions, equalRegions, if_neg hid, if_neg (Ne.symm hid),
      if_pos ⟨hutility.symm, hweights.symm⟩, if_pos ⟨hutility, hweights⟩,
      two_markings hp hq hid hutility hweights,
      two_markings hq hp (Ne.symm hid) hutility.symm hweights.symm]
    cases hf : p.initialAnswer with
    | error f =>
      cases hg : q.initialAnswer with
      | error g => rw [initialAnswer_error_eq hp hq hutility hweights hf hg]
      | ok m => rfl
    | ok n =>
      cases q.initialAnswer with
      | error g => rfl
      | ok m => exact congrArg Except.ok (by rw [decide_eq_decide, eq_comm])
  · have hsame' : ¬(p.holding.region.utility = q.holding.region.utility ∧
        p.holding.region.weights = q.holding.region.weights) := fun h => hsame ⟨h.1.symm, h.2.symm⟩
    rw [equalRegions, equalRegions, if_neg hid, if_neg (Ne.symm hid), if_neg hsame, if_neg hsame']

/-! ## What identifies a region -/

theorem identity_answer {name : SlotName} (hname : s.regionIn? name = some p) :
    (identity name s).answer = p.initialAnswer.map fun m =>
      (p.holding.region.utility, p.holding.region.weights, m) := by
  rw [identity, regionAt, lookup_bind hname, answer_bind_pure]
  rfl

theorem identity_ok {name : SlotName} {k : UtilityId × Weights × Int}
    (h : (identity name s).answer = .ok k) : ∃ p m, s.regionIn? name = some p ∧
      p.initialAnswer = .ok m ∧ k = (p.holding.region.utility, p.holding.region.weights, m) := by
  cases hname : s.regionIn? name with
  | none =>
    have hempty : (regionAt name s).answer = .error (.emptySlot name) := by
      have hnone : (s.slots.lookup name).bind (regionOf? s) = none := hname
      rw [regionAt, lookup, hnone]
    rw [identity, answer_bind_of_error hempty] at h
    cases h
  | some p =>
    rw [identity_answer hname] at h
    cases hm : p.initialAnswer with
    | error f => rw [hm] at h; cases h
    | ok m =>
      rw [hm] at h
      exact ⟨p, m, rfl, hm, (Except.ok.inj h).symm⟩

/-- Regions whose markings can be derived are equal if they have the same utility, weights and marking. -/
theorem equal_of_identities {left right : SlotName} {k l : UtilityId × Weights × Int}
    (hleft : (identity left s).answer = .ok k) (hright : (identity right s).answer = .ok l)
    (watched : Bool) : (step watched (.equal (.slot left) (.slot right)) s).1.answer =
      .ok (.truth (decide (k = l))) := by
  obtain ⟨p, n, hp, hn, rfl⟩ := identity_ok hleft
  obtain ⟨q, m, hq, hm, rfl⟩ := identity_ok hright
  have hp' := region?_of_regionIn? hp
  have hq' := region?_of_regionIn? hq
  rw [(step_equal hp hq watched).1]
  suffices h : (equalRegions p q s).answer = .ok (decide
      ((p.holding.region.utility, p.holding.region.weights, n) =
        (q.holding.region.utility, q.holding.region.weights, m))) by
    rw [h]
    rfl
  by_cases hid : q.id = p.id
  · rw [hid] at hq'
    obtain rfl := Option.some.inj (hp'.symm.trans hq')
    obtain rfl : n = m := Except.ok.inj (hn.symm.trans hm)
    rw [equalRegions, if_pos rfl, decide_eq_true rfl]
    rfl
  by_cases hsame : q.holding.region.utility = p.holding.region.utility ∧
      q.holding.region.weights = p.holding.region.weights
  · rw [equalRegions, if_neg hid, if_pos hsame, two_markings hp' hq' hid hsame.1 hsame.2, hm, hn,
      hsame.1, hsame.2]
    refine congrArg Except.ok ?_
    rw [decide_eq_decide]
    simp [eq_comm]
  · have hne : ¬((p.holding.region.utility, p.holding.region.weights, n) =
        (q.holding.region.utility, q.holding.region.weights, m)) := by
      intro h
      simp only [Prod.mk.injEq] at h
      exact hsame ⟨h.1.symm, h.2.1.symm⟩
    rw [equalRegions, if_neg hid, if_neg hsame, decide_eq_false hne]
    rfl

end RegionCalculus.Session
