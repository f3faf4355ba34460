import RegionCalculus.Proofs.ConsistentRegions
import RegionCalculus.Proofs.Histories

/-!
# Markings of growing systems

A region without a given marking derives one from the vectors that its utility keeps, and the same
vectors give the markings of states, however the system has grown meanwhile. So no marking is
negative, unless the initial marking was derived before the system had a state.

* `Holding.Covers h`: the kept markings of a region do not fall below zero.
* `Holding.Hasty S h`: an initial marking has been derived although `S` has no states.
* `Session.marking_nonneg`: what a region answers about a state is not negative, unless it was hasty.
* `Session.negative_marking`: a hasty region with a negative marking.
-/

namespace RegionCalculus
set_option autoImplicit false

/-! ## Markings that cover the kept vectors -/

namespace Holding

variable {S : System} {h h' : Holding}

structure Covers (h : Holding) : Prop where
  derived : ∀ m, h.region.derived = some m → ∃ table, h.utility.vectors = some table ∧
    ∀ k v, table.lookup k = some v → 0 ≤ m + h.region.evaluate v
  markings : ∀ k m, h.region.markings.lookup k = some m → 0 ≤ m

def Hasty (S : System) (h : Holding) : Prop :=
  S.written.states.isEmpty = true ∧ h.region.derived.isSome

theorem covers_of_fresh {events : Nat} (hR : h.region.Fresh events) : h.Covers where
  derived := fun m hm => by simp [hR.derived] at hm
  markings := fun k m hm => by simp [hR.markings] at hm

theorem Hasty.derive (hh : h.Hasty S) (hd : Derive S h h') : h'.Hasty S := by
  cases hd with
  | fill _ => exact hh
  | marking _ _ => exact ⟨hh.1, rfl⟩
  | state _ _ _ _ => exact hh

/-- A marking that is derived from kept vectors covers all of them, as all belong to states. -/
theorem Derive.covers (hd : Derive S h h') (hgiven : h.region.given = none)
    (hU : h.utility.Within S) (hh : h.Covers) : h'.Hasty S ∨ h'.Covers := by
  cases hd with
  | fill hfill =>
    refine .inr ⟨fun m hm => ?_, hh.markings⟩
    obtain ⟨table, htable, hcovers⟩ := hh.derived m hm
    exact ⟨table, hfill.vectors_eq htable, hcovers⟩
  | @marking R U m _ hkept =>
    unfold RegionUtility.keptMarking? at hkept
    split at hkept
    · rename_i hempty
      exact .inl ⟨hempty, rfl⟩
    · obtain ⟨table, htable, hm⟩ := Option.map_eq_some_iff.1 hkept
      obtain ⟨_, hleast⟩ := normalMarking_le_iff.1 (le_of_eq hm)
      refine .inr ⟨fun m' hm' => ⟨table, htable, fun k v hv => ?_⟩, hh.markings⟩
      rw [← Option.some.inj hm']
      exact hleast k (hU.vectors table htable _ (mem_of_lookup hv)) v hv
  | @state R U k table v start _ htable hv hstart =>
    refine .inr ⟨hh.derived, fun k' m hm => ?_⟩
    rw [List.lookup_cons] at hm
    cases hk : k' == k with
    | false =>
      rw [hk] at hm
      exact hh.markings k' m hm
    | true =>
      rw [hk] at hm
      have hderived : R.derived = some start := by
        simpa [Region.marking?, show R.given = none from hgiven] using hstart
      obtain ⟨table', htable', hcovers⟩ := hh.derived start hderived
      obtain rfl : table = table' := Option.some.inj (htable.symm.trans htable')
      rw [← Option.some.inj hm]
      exact hcovers k v hv

theorem derives_covers (hd : Relation.ReflTransGen (Derive S) h h') (hS : S.lts.Valid)
    (hgiven : h.region.given = none) (hU : h.utility.Within S) (hh : h.Covers) :
    h'.Hasty S ∨ h'.Covers := by
  induction hd with
  | refl => exact .inr hh
  | @tail h₁ h₂ hprev hstep ih =>
    rcases ih with hhasty | hcovers
    · exact .inl (hhasty.derive hstep)
    · have hgiven₁ := (Region.derives_frame hprev).2.2.1.trans hgiven
      exact hstep.covers hgiven₁ (hU.fills hS (Region.fills_of_derives hprev)) hcovers

end Holding

/-! ## The answer for a state -/

namespace Region

variable {S : System} {h : Holding} {v : Value} {m : Int}

/-- An answered marking is kept. -/
theorem markingOf_state (hm : (markingOf S v h).answer = .ok m) :
    (markingOf S v h).state.region.markings.lookup v.key = some m := by
  cases hk : h.region.markings.lookup v.key with
  | some m' =>
    rw [markingOf_of_some hk] at hm ⊢
    obtain rfl : m' = m := Except.ok.inj hm
    exact hk
  | none =>
    rw [markingOf_of_none hk] at hm ⊢
    obtain ⟨vector, _, hm, hstate⟩ := Attempt.bind_ok hm
    rw [hstate]
    obtain ⟨start, _, hm, hstate⟩ := Attempt.bind_ok hm
    rw [hstate]
    obtain ⟨effect, _, hm, hstate⟩ := Attempt.bind_ok hm
    rw [hstate]
    obtain rfl : start + effect = m := Except.ok.inj hm
    exact List.lookup_cons_self

/-- A marking that was not kept is answered for a state of the system only. -/
theorem has_of_markingOf (hk : h.region.markings.lookup v.key = none)
    (hm : (markingOf S v h).answer = .ok m) : S.Has v := by
  rw [markingOf_of_none hk] at hm
  obtain ⟨vector, hvector, _⟩ := Attempt.bind_ok hm
  have hreaching : (RegionUtility.reachingVector S v h.utility).answer = .ok vector := hvector
  obtain ⟨_, hfound, _⟩ := Attempt.bind_ok hreaching
  obtain ⟨_, hrequire, _⟩ := Attempt.bind_ok hfound
  by_contra hno
  simp [System.require, hno] at hrequire

end Region

namespace Session

variable {s : Session} {r : RegionId} {p : PlacedRegion}

/-- The region has derived its initial marking although its system has no states. -/
def Hasty (r : RegionId) (s : Session) : Prop :=
  ∃ p, s.region? r = some p ∧ p.holding.Hasty p.system

theorem ReachedThrough.covers (hs : s.ReachedThrough fun s => ¬ s.Hasty r)
    (hp : s.region? r = some p) (hgiven : p.holding.region.given = none) : p.holding.Covers := by
  induction hs generalizing p with
  | empty => cases hp
  | step watched c hprev hcalm ih =>
    have hreached := hprev.reached
    have hS : p.system.lts.Valid :=
      (hreached.step watched c).valid (region?_eq_some_iff.1 hp).2.2
    have hnot : ¬ p.holding.Hasty p.system := fun hhasty => hcalm ⟨p, hp, hhasty⟩
    rcases step_region?_cases hreached watched c hp with
      ⟨h, hold, hd⟩ | ⟨h, hfresh, hyields, hd⟩ | ⟨S, hold, _⟩
    · have hgiven' := (Region.derives_frame hd).2.2.1.symm.trans hgiven
      have hwithin := hreached.within _ _ (region?_eq_some_iff.1 hold).2.2
      exact (Holding.derives_covers hd hS hgiven' hwithin (ih hold hgiven')).resolve_left hnot
    · have hgiven' := (Region.derives_frame hd).2.2.1.symm.trans hgiven
      have hwithin := hyields.within hreached.within hS
      exact (Holding.derives_covers hd hS hgiven' hwithin
        (Holding.covers_of_fresh hfresh)).resolve_left hnot
    · have hcovers := ih hold hgiven
      exact hcovers

theorem tellRegion_markingOf_ok (watched : Bool) {v : Value} {k : Int}
    (h : (Region.markingOf p.system v p.holding).answer.toOption = some k) :
    (tellRegion watched p (.markingOf v) s).answer = .ok (.number k) := by
  rw [tellRegion_markingOf]
  cases hm : (Region.markingOf p.system v p.holding).answer with
  | error f => simp [hm, Except.toOption] at h
  | ok m =>
    obtain rfl : m = k := by simpa [hm, Except.toOption] using h
    rfl

/-- What a region without a given marking answers about a state is not negative, unless its initial
marking was derived at a moment when its system had no states. -/
theorem marking_nonneg (watched : Bool) (hs : s.ReachedThrough fun s => ¬ s.Hasty r)
    (hp : s.region? r = some p) (hgiven : p.holding.region.given = none) {v : Value} {k : Int}
    (hk : (tellRegion watched p (.markingOf v) s).answer = .ok (.number k)) : 0 ≤ k := by
  have hcovers := hs.covers hp hgiven
  have hanswer : (Region.markingOf p.system v p.holding).answer = .ok k := by
    rw [tellRegion_markingOf] at hk
    cases h : (Region.markingOf p.system v p.holding).answer with
    | error f => simp [h, Except.map] at hk
    | ok m =>
      rw [h] at hk
      rw [Answer.number.inj (Except.ok.inj hk)]
  cases hmemo : p.holding.region.markings.lookup v.key with
  | some m =>
    rw [Region.markingOf_of_some hmemo] at hanswer
    rw [← Except.ok.inj hanswer]
    exact hcovers.markings v.key m hmemo
  | none =>
    have hhas : v.key ∈ p.system.lts.states := Region.has_of_markingOf hmemo hanswer
    have hstates : p.system.written.states.isEmpty = false := by
      obtain ⟨w, hw, _⟩ := List.mem_map.1 hhas
      exact List.isEmpty_eq_false_iff.2 (List.ne_nil_of_mem hw)
    have hwithin := hs.reached.within _ _ (region?_eq_some_iff.1 hp).2.2
    have hafter := Holding.derives_covers (Region.markingOf_leads p.system v p.holding)
      (hs.reached.valid (region?_eq_some_iff.1 hp).2.2) hgiven hwithin hcovers
    rcases hafter with ⟨hempty, _⟩ | hcovers'
    · simp [hstates] at hempty
    · exact hcovers'.markings v.key k (Region.markingOf_state hanswer)

theorem not_hasty_of_none (h : s.region? r = none) : ¬ s.Hasty r := by
  rintro ⟨p, hp, _⟩
  rw [h] at hp
  cases hp

theorem marking_nonneg_ring :
    (ringSession.ReachedThrough fun s => ¬ s.Hasty 0) ∧ ringSession.region? 0 = some ringRegion ∧
      ringRegion.holding.region.given = none ∧
      (tellRegion false ringRegion (.markingOf (.text "s1")) ringSession).answer =
        .ok (.number 2) ∧ (0 : Int) ≤ 2 := by
  have hmade : ringMade.ReachedThrough fun s => ¬ s.Hasty 0 :=
    .step false _ .empty (not_hasty_of_none rfl)
  have hutility : (step false (.newUtility "lts" none (some "utility")) ringMade).2.ReachedThrough
      fun s => ¬ s.Hasty 0 := .step false _ hmade (not_hasty_of_none rfl)
  have hregion : ringSession.ReachedThrough fun s => ¬ s.Hasty 0 := by
    refine .step false _ hutility ?_
    rintro ⟨p, hp, _, hderived⟩
    obtain rfl : ringRegion = p := Option.some.inj (region?_ringSession.symm.trans hp)
    cases hderived
  have hmarking :
      (Region.markingOf ringRegion.system (.text "s1") ringRegion.holding).answer.toOption =
        some 2 := by
    decide +kernel
  have hanswer := tellRegion_markingOf_ok (p := ringRegion) (s := ringSession) false hmarking
  exact ⟨hregion, region?_ringSession, rfl, hanswer,
    marking_nonneg false hregion region?_ringSession rfl hanswer⟩

/-! ## A hasty region -/

/-- A region asks for its initial marking before its system has states. -/
def hastyCommands : List Command :=
  [.newSystem "" (some "lts"), .newUtility "lts" (some ["a"]) (some "utility"),
    .newRegion "utility" [.integer 1] [.integer 0] .null (some "region"),
    .toRegion "region" .initialMarking, .toSystem "lts" (.createState (.text "x")),
    .toSystem "lts" (.createState (.text "y")), .toSystem "lts" (.setInitial (.text "x")),
    .toSystem "lts" (.createArc (.text "x") (.text "y") (.text "a"))]

def hastySystem : System where
  written :=
    { states := [.text "x", .text "y"]
      arcs := [⟨.text "x", .text "y", "a"⟩]
      initial := some (.text "x") }
  alphabet := ["a"]
  alphabet_eq := rfl

def hastyRegion : PlacedRegion :=
  ⟨0, ⟨⟨0, ⟨[1], [0]⟩, none, some 0, []⟩, ⟨0, ["a"], none, none, none⟩⟩, hastySystem⟩

theorem region?_hastyCommands : (run false hastyCommands {}).2.region? 0 = some hastyRegion := rfl

theorem negative_marking : ¬ ∀ (s : Session) (r : RegionId) (p : PlacedRegion) (v : Value) (k : Int),
    s.Reached → s.region? r = some p → p.holding.region.given = none →
    (tellRegion false p (.markingOf v) s).answer = .ok (.number k) → 0 ≤ k := by
  intro hall
  have hmarking :
      (Region.markingOf hastyRegion.system (.text "y") hastyRegion.holding).answer.toOption =
        some (-1) := by
    decide +kernel
  have hanswer := tellRegion_markingOf_ok (p := hastyRegion)
    (s := (run false hastyCommands {}).2) false hmarking
  have hnonneg := hall _ 0 hastyRegion (.text "y") (-1) (Reached.empty.run false hastyCommands)
    region?_hastyCommands rfl hanswer
  omega

end Session

end RegionCalculus
