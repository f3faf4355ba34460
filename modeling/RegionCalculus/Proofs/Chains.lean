import RegionCalculus.Proofs.Equality
import RegionCalculus.Proofs.NormalForm

/-!
# Chains of sums

Multiples of regions are added to a region in two ways: region by region, each sum being a region of
its own, or on a builder that is finished at the end. Both lead to the same weights, whatever the
factors are. They may differ in the marking if all factors are 0, since the sum is then the first region
itself and keeps the marking that was given to it.

* `regionSums acc terms`: the sums one after the other, the last one standing in the slot `acc`.
* `builtSum acc bld res terms`: the same on a builder in `bld`, which is finished into `res`.
* `Session.sumWeights s w terms`: the weights that result.
* `Session.Summed`: what sums of regions make of a session, `Session.run_regionSums` by induction.
* `Session.Chained`: how both results compare, `Session.sums_agree`.
-/

namespace RegionCalculus
set_option autoImplicit false

open Attempt

def regionSums (acc : SlotName) (terms : List (SlotName × Int)) : List Command :=
  terms.map fun t => .toRegion acc (.addScaled (.slot t.1) (.integer t.2) (some acc))

def builderSums (on : SlotName) (terms : List (SlotName × Int)) : List Command :=
  builderCommands on (terms.map fun t => .add t.1 t.2)

def builtSum (acc bld res : SlotName) (terms : List (SlotName × Int)) : List Command :=
  .builderOfRegion acc (some bld) ::
    (builderSums bld terms ++ [.toBuilder bld (.finish .null (some res))])

namespace Session

variable {s s' s'' : Session} {acc bld res on : SlotName} {p p' p'' : PlacedRegion}
  {q : PlacedRegion} {b : PlacedBuilder} {t : SlotName × Int} {terms : List (SlotName × Int)}
  {w : Weights}

/-! ## Sums of weights -/

/-- The weights `w` with a multiple of the region in a slot. -/
def plus (s : Session) (w : Weights) (t : SlotName × Int) : Weights :=
  match s.regionIn? t.1 with
  | some q => w.addScaled q.holding.region.weights t.2
  | none => w

def sumWeights (s : Session) (w : Weights) (terms : List (SlotName × Int)) : Weights :=
  terms.foldl s.plus w

theorem plus_of_region {q : PlacedRegion} (hq : s.regionIn? t.1 = some q) (w : Weights) :
    s.plus w t = w.addScaled q.holding.region.weights t.2 := by rw [plus, hq]

/-- The sum depends on the regions in the slots alone. -/
theorem sumWeights_congr {u : UtilityId} (hterms : ∀ t ∈ terms, s.Holds u t.1)
    (hsame : ∀ t ∈ terms, ∀ q, s.regionIn? t.1 = some q → s'.regionIn? t.1 = some q) (w : Weights) :
    s'.sumWeights w terms = s.sumWeights w terms := by
  refine List.foldl_ext _ _ w fun v t ht => ?_
  obtain ⟨q, hq, _⟩ := hterms t ht
  rw [plus_of_region hq, plus_of_region (hsame t ht q hq)]

/-! ## Answers -/

/-- No command failed. -/
def Answered (results : List Result) : Prop := ∀ r ∈ results, ∃ a, r.answer = .ok a

theorem answered_nil : Answered [] := fun _ h => absurd h List.not_mem_nil

theorem answered_cons {r : Result} {results : List Result} {a : Answer} (hr : r.answer = .ok a)
    (h : Answered results) : Answered (r :: results) := by
  intro r' hr'
  rcases List.mem_cons.1 hr' with rfl | hr'
  · exact ⟨a, hr⟩
  · exact h r' hr'

theorem Answered.append {results results' : List Result} (h : Answered results)
    (h' : Answered results') : Answered (results ++ results') := fun r hr =>
  (List.mem_append.1 hr).elim (h r) (h' r)

/-! ## Sums of regions -/

/-- The sum `p'` of `p` and of terms stands in its slot, and nothing else is changed. It is `p` itself
if all factors are 0, and a new region otherwise. -/
structure Summed (s : Session) (acc : SlotName) (p : PlacedRegion) (terms : List (SlotName × Int))
    (s' : Session) (p' : PlacedRegion) : Prop where
  slot : s'.regionIn? acc = some p'
  owner : p'.owner = p.owner
  weights : p'.holding.region.weights = s.sumWeights p.holding.region.weights terms
  others : KeepsBut [acc] s s'
  grows : s.regions.length ≤ s'.regions.length
  zero : (∀ t ∈ terms, t.2 = 0) → p' = p
  new : (∃ t ∈ terms, t.2 ≠ 0) →
    s.regions.length ≤ p'.id ∧ p'.holding.region.marking? = none

theorem summed_nil (h : s.regionIn? acc = some p) : s.Summed acc p [] s p where
  slot := h
  owner := rfl
  weights := rfl
  others := fun _ _ _ hq => hq
  grows := le_rfl
  zero := fun _ => rfl
  new := fun ⟨_, ht, _⟩ => absurd ht List.not_mem_nil

/-- A factor 0 leaves the region that stands in the slot. -/
theorem summed_self (hacc : s.regionIn? acc = some p) (hk : t.2 = 0)
    (hw : s.plus p.holding.region.weights t = p.holding.region.weights) :
    s.Summed acc p [t] (s.place (some acc) (.region p.id)) p where
  slot := regionIn?_place_self (region?_of_regionIn? hacc) acc
  owner := rfl
  weights := hw.symm
  others := keepsBut_place List.mem_cons_self s _
  grows := le_rfl
  zero := fun _ => rfl
  new := fun ⟨_, ht', hne⟩ => absurd (List.mem_singleton.1 ht' ▸ hk) hne

theorem summed_new (hacc : s.regionIn? acc = some p) (hk : t.2 ≠ 0)
    (hq : s.regionIn? t.1 = some q) :
    s.Summed acc p [t]
      ((s.withRegion (p.holding.region.sum q.holding.region t.2)).place (some acc)
        (.region s.regions.length))
      ⟨s.regions.length, ⟨p.holding.region.sum q.holding.region t.2, p.holding.utility⟩,
        p.system⟩ where
  slot := by
    have hid : (p.holding.region.sum q.holding.region t.2).utility = p.owner.id := rfl
    exact regionIn?_place_self (region?_withRegion_new (owner_of_regionIn? hacc) hid) acc
  owner := rfl
  weights := (plus_of_region hq p.holding.region.weights).symm
  others := (keepsBut_withRegion s _).trans (keepsBut_place List.mem_cons_self _ _)
  grows := by
    change _ ≤ (s.regions ++ [_]).length
    rw [List.length_append]
    exact Nat.le_add_right _ _
  zero := fun hzero => absurd (hzero t List.mem_cons_self) hk
  new := fun _ => ⟨le_rfl, rfl⟩

theorem Summed.cons (h : s.Summed acc p [t] s' p') (h' : s'.Summed acc p' terms s'' p'')
    (hterms : ∀ t ∈ terms, t.1 ≠ acc ∧ s.Holds p.holding.region.utility t.1) :
    s.Summed acc p (t :: terms) s'' p'' where
  slot := h'.slot
  owner := h'.owner.trans h.owner
  weights := by
    rw [h'.weights, h.weights]
    exact sumWeights_congr (fun t ht => (hterms t ht).2)
      (fun t ht q hq => h.others _ q (by simpa using (hterms t ht).1) hq) _
  others := h.others.trans h'.others
  grows := h.grows.trans h'.grows
  zero := fun hzero => by
    rw [h'.zero fun t ht => hzero t (List.mem_cons_of_mem _ ht),
      h.zero (by simpa using hzero t List.mem_cons_self)]
  new := fun hnew => by
    -- the last factor that is not 0 has made the region, no later sum has replaced it
    by_cases hrest : ∃ t ∈ terms, t.2 ≠ 0
    · obtain ⟨hid, hmarking⟩ := h'.new hrest
      exact ⟨h.grows.trans hid, hmarking⟩
    · have hzero : ∀ t ∈ terms, t.2 = 0 := by simpa using hrest
      have hfirst : t.2 ≠ 0 := by
        obtain ⟨t', ht', hne⟩ := hnew
        rcases List.mem_cons.1 ht' with rfl | ht'
        · exact hne
        · exact absurd (hzero t' ht') hne
      rw [h'.zero hzero]
      exact h.new ⟨t, List.mem_cons_self, hfirst⟩

theorem step_regionSum (watched : Bool) (hs : s.Reached) (hacc : s.regionIn? acc = some p)
    (hholds : s.Holds p.holding.region.utility t.1) :
    ∃ shown p', (step watched
          (.toRegion acc (.addScaled (.slot t.1) (.integer t.2) (some acc))) s).1.answer =
        .ok (.text shown) ∧
      s.Summed acc p [t] (step watched
        (.toRegion acc (.addScaled (.slot t.1) (.integer t.2) (some acc))) s).2 p' := by
  obtain ⟨q, hq, hsame⟩ := hholds
  have hwell := hs.wellMade.regions _ p (region?_of_regionIn? hacc)
  have hwell' := hs.wellMade.wellFormed (owner_of_regionIn? hacc) (region?_of_regionIn? hq) hsame
  obtain ⟨hanswer, hstate⟩ :=
    step_toRegion hacc watched (.addScaled (.slot t.1) (.integer t.2) (some acc))
  rw [hanswer, hstate, addScaled_apply hwell hwell' hsame hq watched t.2 (some acc)]
  by_cases hk : t.2 = 0
  · have hw : s.plus p.holding.region.weights t = p.holding.region.weights := by
      rw [plus_of_region hq, hk, hwell.sized.addScaled_zero hwell'.sized]
    rw [if_pos hk]
    exact ⟨_, p, rfl, summed_self hacc hk hw⟩
  · rw [if_neg hk, produce_apply]
    exact ⟨_, _, rfl, summed_new hacc hk hq⟩

theorem run_regionSums (watched : Bool) (hs : s.Reached) (hacc : s.regionIn? acc = some p)
    (hterms : ∀ t ∈ terms, t.1 ≠ acc ∧ s.Holds p.holding.region.utility t.1) :
    Answered (run watched (regionSums acc terms) s).1 ∧
      ∃ p', s.Summed acc p terms (run watched (regionSums acc terms) s).2 p' := by
  induction terms generalizing s p with
  | nil => exact ⟨answered_nil, p, summed_nil hacc⟩
  | cons t terms ih =>
    have hrest := fun t' ht' => hterms t' (List.mem_cons_of_mem t ht')
    obtain ⟨shown, p', hanswer, hfirst⟩ :=
      step_regionSum watched hs hacc (hterms t List.mem_cons_self).2
    have hutility : p'.holding.region.utility = p.holding.region.utility :=
      congrArg PlacedUtility.id hfirst.owner
    obtain ⟨hanswered, p'', hsummed⟩ := ih (.step watched _ hs) hfirst.slot fun t' ht' => by
      obtain ⟨hne, q, hq, hsame⟩ := hrest t' ht'
      exact ⟨hne, q, hfirst.others _ q (by simpa using hne) hq, hsame.trans hutility.symm⟩
    exact ⟨answered_cons hanswer hanswered, p'', hfirst.cons hsummed hrest⟩

/-- Sums of well-formed regions are well-formed. -/
theorem sumWeights_wellFormed (hs : s.Reached) (hacc : s.regionIn? acc = some p)
    (hterms : ∀ t ∈ terms, t.1 ≠ acc ∧ s.Holds p.holding.region.utility t.1) :
    (s.sumWeights p.holding.region.weights terms).Sized p.holding.utility.size ∧
      (∀ x ∈ (s.sumWeights p.holding.region.weights terms).backward, 0 ≤ x) ∧
        ∀ x ∈ (s.sumWeights p.holding.region.weights terms).forward, 0 ≤ x := by
  obtain ⟨_, p', hsummed⟩ := run_regionSums false hs hacc hterms
  have hs' := (later_run false (regionSums acc terms) s).reached hs
  have hwell := hs'.wellMade.regions _ p' (region?_of_regionIn? hsummed.slot)
  have hutility : p'.holding.utility = p.holding.utility :=
    congrArg PlacedUtility.utility hsummed.owner
  rw [← hsummed.weights, ← hutility]
  exact ⟨hwell.sized, hwell.signs⟩

/-! ## Sums on a builder -/

theorem answered_builderSums (watched : Bool) (hon : s.builderIn? on = some b)
    (hterms : ∀ t ∈ terms, s.Holds b.builder.utility t.1) (w : Weights) :
    Answered (run watched (builderSums on terms) (s.withWeights b w)).1 := by
  induction terms generalizing w with
  | nil => exact answered_nil
  | cons t terms ih =>
    obtain ⟨q, hq, hsame⟩ := hterms t List.mem_cons_self
    have hq' : (s.withWeights b w).regionIn? t.1 = some q := hq
    have hon' := builderIn?_setBuilder (B := ⟨b.builder.utility, w⟩) hon rfl
    have hanswer := (step_add watched hon' hq' hsame t.2).1
    have hafter := step_call (w := w) (c := .add t.1 t.2) watched hon fun t' ht' =>
      Option.some.inj ht' ▸ hterms t List.mem_cons_self
    refine answered_cons hanswer ?_
    rw [hafter]
    exact ih (fun t' ht' => hterms t' (List.mem_cons_of_mem t ht')) _

/-- Terms that are added in place, one after the other, come to their sum. -/
theorem foldl_add_eq {U : RegionUtility} (hw : w.Sized U.size)
    (hterms : ∀ t ∈ terms, ∃ q, s.regionIn? t.1 = some q ∧ q.holding.region.weights.Sized U.size) :
    terms.foldl (fun w t => (BuilderCall.add t.1 t.2).apply s U w) w = s.sumWeights w terms := by
  induction terms generalizing w with
  | nil => rfl
  | cons t terms ih =>
    obtain ⟨q, hq, hsized⟩ := hterms t List.mem_cons_self
    have hstep : (BuilderCall.add t.1 t.2).apply s U w = s.plus w t := by
      rw [plus_of_region hq, ← hw.accumulate_eq hsized, BuilderCall.apply, hq]
    have hplus : (s.plus w t).Sized U.size := by
      rw [plus_of_region hq]
      exact hw.addScaled hsized t.2
    rw [List.foldl_cons, hstep]
    exact ih hplus fun t' ht' => hterms t' (List.mem_cons_of_mem t ht')

theorem run_builderSums (watched : Bool) (hs : s.Reached) (hon : s.builderIn? on = some b)
    (hterms : ∀ t ∈ terms, s.Holds b.builder.utility t.1) :
    Answered (run watched (builderSums on terms) s).1 ∧
      (run watched (builderSums on terms) s).2 =
        s.withWeights b (s.sumWeights b.builder.weights terms) := by
  have hadditions : additions (terms.map fun t => BuilderCall.add t.1 t.2) = terms := by
    simp [additions, List.filterMap_map, Function.comp_def, BuilderCall.addition?]
  have hsized : ∀ t ∈ terms, ∃ q, s.regionIn? t.1 = some q ∧
      q.holding.region.weights.Sized b.utility.size := by
    intro t ht
    obtain ⟨q, hq, hsame⟩ := hterms t ht
    exact ⟨q, hq,
      (hs.wellMade.wellFormed (owner_of_builderIn? hon) (region?_of_regionIn? hq) hsame).sized⟩
  have hanswered := answered_builderSums watched hon hterms b.builder.weights
  have hrun := run_calls watched hon (terms.map fun t => BuilderCall.add t.1 t.2)
    (by rwa [hadditions]) b.builder.weights
  rw [withWeights_self hon] at hanswered hrun
  rw [List.foldl_map, foldl_add_eq (hs.builder_sized (builder?_of_builderIn? hon)) hsized] at hrun
  exact ⟨hanswered, hrun⟩

/-- A copy of a region as a builder stands in its slot. -/
theorem step_builderOfRegion (watched : Bool) (hacc : s.regionIn? acc = some p) (bld : SlotName) :
    ∃ b, (step watched (.builderOfRegion acc (some bld)) s).1.answer =
        .ok (.weights p.holding.region.weights) ∧
      (step watched (.builderOfRegion acc (some bld)) s).2.builderIn? bld = some b ∧
      b.owner = p.owner ∧ b.builder.weights = p.holding.region.weights ∧
      (step watched (.builderOfRegion acc (some bld)) s).2.regions = s.regions ∧
      KeepsBut [bld] s (step watched (.builderOfRegion acc (some bld)) s).2 := by
  have howner := owner_of_regionIn? hacc
  have hstep : perform watched (.builderOfRegion acc (some bld)) s =
      produceBuilder (Builder.ofRegion p.holding.region) (some bld) s := lookup_bind hacc _
  rw [produceBuilder_apply] at hstep
  simp only [step, hstep]
  refine ⟨_, rfl, builderIn?_place_self (builder?_withBuilder howner rfl) bld, rfl, rfl, rfl, ?_⟩
  exact keepsBut_place List.mem_cons_self (s.withBuilder _) _

/-- A new region without a marking stands in `res`, and only the slots with the given names are
changed. -/
structure Built (s : Session) (names : List SlotName) (res : SlotName) (u : PlacedUtility)
    (w : Weights) (s' : Session) (q : PlacedRegion) : Prop where
  slot : s'.regionIn? res = some q
  owner : q.owner = u
  weights : q.holding.region.weights = w
  marking : q.holding.region.marking? = none
  id : q.id = s.regions.length
  length : s'.regions.length = s.regions.length + 1
  others : KeepsBut names s s'

theorem step_finish (watched : Bool) (hon : s.builderIn? bld = some b)
    (hsized : b.builder.weights.Sized b.utility.size)
    (hsigns : (∀ x ∈ b.builder.weights.backward, 0 ≤ x) ∧
      ∀ x ∈ b.builder.weights.forward, 0 ≤ x) (res : SlotName) :
    ∃ shown q, (step watched (.toBuilder bld (.finish .null (some res))) s).1.answer =
        .ok (.text shown) ∧
      s.Built [res] res b.owner b.builder.weights
        (step watched (.toBuilder bld (.finish .null (some res))) s).2 q := by
  have hfinish : tellBuilder watched b (.finish .null (some res)) s = _ :=
    finish_apply (m := none) hsized hsigns (fun _ h => by cases h) watched (some res)
  have howner := owner_of_builderIn? hon
  obtain ⟨hanswer, hstate⟩ := step_toBuilder hon watched (.finish .null (some res))
  rw [hanswer, hstate, hfinish, produce_apply]
  refine ⟨_, _, rfl, regionIn?_place_self (region?_withRegion_new howner rfl) res, rfl, rfl, rfl,
    rfl, ?_, ?_⟩
  · exact List.length_append
  · exact (keepsBut_withRegion s _).trans (keepsBut_place List.mem_cons_self _ _)

theorem run_builtSum (watched : Bool) (hs : s.Reached) (hacc : s.regionIn? acc = some p)
    (bld res : SlotName)
    (hterms : ∀ t ∈ terms, t.1 ≠ acc ∧ t.1 ≠ bld ∧ s.Holds p.holding.region.utility t.1) :
    Answered (run watched (builtSum acc bld res terms) s).1 ∧
      ∃ q, s.Built [bld, res] res p.owner (s.sumWeights p.holding.region.weights terms)
        (run watched (builtSum acc bld res terms) s).2 q := by
  obtain ⟨hsized, hsigns⟩ := sumWeights_wellFormed hs hacc fun t ht =>
    ⟨(hterms t ht).1, (hterms t ht).2.2⟩
  obtain ⟨b, hcopied, hon, howner, hweights, hregions, hkeeps⟩ :=
    step_builderOfRegion watched hacc bld
  have hid : b.builder.utility = p.holding.region.utility := congrArg PlacedUtility.id howner
  have hutility : b.utility = p.holding.utility := congrArg PlacedUtility.utility howner
  have hreached := hs.step watched (.builderOfRegion acc (some bld))
  rw [builtSum, run, run_append]
  generalize (step watched (.builderOfRegion acc (some bld)) s).2 = s₁ at *
  have hkept : ∀ t ∈ terms, ∀ q, s.regionIn? t.1 = some q → s₁.regionIn? t.1 = some q :=
    fun t ht q hq => hkeeps _ q (by simpa using (hterms t ht).2.1) hq
  obtain ⟨hanswered, hsums⟩ := run_builderSums watched hreached hon fun t ht => by
    obtain ⟨q, hq, hsame⟩ := (hterms t ht).2.2
    exact ⟨q, hkept t ht q hq, hsame.trans hid.symm⟩
  rw [hweights, sumWeights_congr (fun t ht => (hterms t ht).2.2) hkept] at hsums
  have hon' := builderIn?_setBuilder
    (B := ⟨b.builder.utility, s.sumWeights p.holding.region.weights terms⟩) hon rfl
  obtain ⟨shown, q, hfinished, hbuilt⟩ :=
    step_finish watched hon' (hutility ▸ hsized) hsigns res
  rw [hsums]
  refine ⟨answered_cons hcopied (hanswered.append (answered_cons hfinished answered_nil)), q,
    hbuilt.slot, hbuilt.owner.trans howner, hbuilt.weights, hbuilt.marking, ?_, ?_, ?_⟩
  · rw [hbuilt.id, ← hregions]
    rfl
  · rw [← hregions]
    exact hbuilt.length
  · have hsame : KeepsBut [bld, res] s₁
        (s₁.withWeights b (s.sumWeights p.holding.region.weights terms)) := fun _ _ _ h => h
    exact ((hkeeps.mono (by simp)).trans hsame).trans (hbuilt.others.mono (by simp))

/-! ## Both sums -/

/-- How the sum `p'` of regions compares with the region `q` that was built: both have the weights of
the sum, and equality tells, in either order, whether the initial marking of `p'` is its normal one. -/
structure Chained (watched : Bool) (s : Session) (acc res : SlotName) (p : PlacedRegion)
    (terms : List (SlotName × Int)) (s' : Session) (p' q : PlacedRegion) : Prop where
  slot : s'.regionIn? acc = some p'
  built : s'.regionIn? res = some q
  owner : p'.owner = p.owner
  builtOwner : q.owner = p.owner
  weights : p'.holding.region.weights = s.sumWeights p.holding.region.weights terms
  builtWeights : q.holding.region.weights = p'.holding.region.weights
  kept : ∀ i r, s.region? i = some r → ∃ r', s'.region? i = some r' ∧
    r'.holding.region.weights = r.holding.region.weights
  equal_iff : ∀ b,
    ((step watched (.equal (.slot acc) (.slot res)) s').1.answer = .ok (.truth b) ↔
        s'.TellsNormal watched acc b) ∧
      ((step watched (.equal (.slot res) (.slot acc)) s').1.answer = .ok (.truth b) ↔
        s'.TellsNormal watched acc b)
  zero : (∀ t ∈ terms, t.2 = 0) → p'.id = p.id
  equal : ∀ S init, (∃ t ∈ terms, t.2 ≠ 0) → s.Steady p.holding.region.utility S →
    S.initial? = .ok init →
    (step watched (.equal (.slot acc) (.slot res)) s').1.answer = .ok (.truth true) ∧
      (step watched (.equal (.slot res) (.slot acc)) s').1.answer = .ok (.truth true)

theorem notSystem_of_mem_sums {c : Command}
    (hc : c ∈ builtSum acc bld res terms ++ regionSums acc terms) (on : SlotName)
    (command : SystemCommand) : c ≠ .toSystem on command := by
  rintro rfl
  simp [builtSum, builderSums, builderCommands, regionSums, BuilderCall.command] at hc

/-- A region without a marking that was given answers its normal marking as its initial one, if the
system is as it was when the utility was made. -/
theorem tellsNormal_of_settled {u : UtilityId} {S : System} {U : RegionUtility} {init : Value}
    (watched : Bool) (hs : s.Settled u S U) (hS : S.lts.Valid) (hi : S.initial? = .ok init)
    (hacc : s.regionIn? acc = some p) (hu : p.holding.region.utility = u)
    (hgiven : p.holding.region.given = none) : s.TellsNormal watched acc true := by
  obtain ⟨_, m, n, h⟩ := hs.answers watched hS hi (region?_of_regionIn? hacc) hu
  have hmn : m = n := by rw [h.given, hgiven, Option.getD_none]
  exact ⟨m, n, (step_toRegion hacc watched _).1.trans h.initial,
    (step_toRegion hacc watched _).1.trans h.normal, by simp [hmn]⟩

/-- What the builder has made is another region than the sum. -/
theorem Summed.ne_built {names : List SlotName} {u : PlacedUtility}
    (hbuilt : s.Built names res u w s' q) (h : s'.Summed acc p terms s'' p')
    (hp : s.region? p.id = some p) : q.id ≠ p'.id := by
  obtain ⟨_, hR, _⟩ := region?_eq_some_iff.1 hp
  obtain ⟨hlt, _⟩ := List.getElem?_eq_some_iff.1 hR
  have hbefore : q.id < s'.regions.length := by
    rw [hbuilt.id, hbuilt.length]
    exact Nat.lt_succ_self _
  by_cases hnew : ∃ t ∈ terms, t.2 ≠ 0
  · exact Nat.ne_of_lt (hbefore.trans_le (h.new hnew).1)
  · have hsame : p' = p := h.zero (by simpa using hnew)
    rw [hsame, hbuilt.id]
    exact Nat.ne_of_gt hlt

/-- Adding multiples of regions to a region one by one, and adding them to a builder that copies the
region and is finished without a marking, both succeed and give regions with the same weights. The
regions that are added keep theirs. They stand in slots that the sums do not use; the first region may
stand in one of these slots as well. -/
theorem sums_agree (watched : Bool) (hs : s.Reached) (hacc : s.regionIn? acc = some p)
    (bld res : SlotName) (hslots : acc ∉ [bld, res])
    (hterms : ∀ t ∈ terms, t.1 ∉ [acc, bld, res] ∧ s.Holds p.holding.region.utility t.1) :
    Answered (run watched (builtSum acc bld res terms ++ regionSums acc terms) s).1 ∧
      ∃ p' q, s.Chained watched acc res p terms
        (run watched (builtSum acc bld res terms ++ regionSums acc terms) s).2 p' q := by
  have hnames : ∀ t ∈ terms, t.1 ≠ acc ∧ t.1 ∉ [bld, res] := fun t ht => by
    simpa using (hterms t ht).1
  have hp := region?_of_regionIn? hacc
  have hleads := run_leads watched (builtSum acc bld res terms ++ regionSums acc terms)
    (fun _ hc => notSystem_of_mem_sums hc) s
  have hlater := later_run watched (builtSum acc bld res terms ++ regionSums acc terms) s
  have hbefore := (later_run watched (builtSum acc bld res terms) s).reached hs
  obtain ⟨hanswered, q, hbuilt⟩ := run_builtSum watched hs hacc bld res
    fun t ht => ⟨(hnames t ht).1, fun h => (hnames t ht).2 (by simp [h]), (hterms t ht).2⟩
  rw [run_append] at hleads hlater ⊢
  generalize (run watched (builtSum acc bld res terms) s).2 = s₁ at *
  have hkept : ∀ t ∈ terms, ∀ r, s.regionIn? t.1 = some r → s₁.regionIn? t.1 = some r :=
    fun t ht r hr => hbuilt.others _ r (hnames t ht).2 hr
  obtain ⟨hanswered', p', hsummed⟩ := run_regionSums watched hbefore
    (hbuilt.others acc p hslots hacc) fun t ht => ⟨(hnames t ht).1, (hterms t ht).2.imp
      fun r hr => ⟨hkept t ht r hr.1, hr.2⟩⟩
  generalize (run watched (regionSums acc terms) s₁).2 = s₂ at *
  have hres : res ≠ acc := fun h => hslots (by simp [h])
  have hresult : s₂.regionIn? res = some q := hsummed.others res q (by simpa using hres) hbuilt.slot
  have hweights := hsummed.weights.trans
    (sumWeights_congr (fun t ht => (hterms t ht).2) hkept p.holding.region.weights)
  have hsame : q.holding.region.utility = p'.holding.region.utility :=
    congrArg PlacedUtility.id (hbuilt.owner.trans hsummed.owner.symm)
  have hequal := equal_lazy_iff hsummed.slot hresult (hsummed.ne_built hbuilt hp) hsame
    (hbuilt.weights.trans hweights.symm) hbuilt.marking watched
  refine ⟨hanswered.append hanswered', p', q, hsummed.slot, hresult, hsummed.owner, hbuilt.owner,
    hweights, hbuilt.weights.trans hweights.symm, fun i r hr => ?_, hequal, fun hzero => ?_,
    fun S init hnew hsteady hi => ?_⟩
  · obtain ⟨r', hr', hbecomes⟩ := hlater.region? hs hr
    exact ⟨r', hr', hbecomes.weights⟩
  · rw [hsummed.zero hzero]
  · obtain ⟨U, hU⟩ := hsteady.settled
    obtain ⟨U', hU'⟩ := hU.touches hleads
    have htells := tellsNormal_of_settled watched hU' hsteady.valid hi hsummed.slot
      (congrArg PlacedUtility.id hsummed.owner) (Region.given_of_marking?_none (hsummed.new hnew).2)
    exact ⟨(hequal true).1.2 htells, (hequal true).2.2 htells⟩

/-- Twice the other region, and three times its reverse. -/
def craftTerms : List (SlotName × Int) := [("other", 2), ("other", -3)]

/-- The session after both sums. -/
def craftSums : List Result × Session :=
  run false (builtSum "region" "sum" "built" craftTerms ++ regionSums "region" craftTerms)
    craftSession

theorem steady_craftSession : craftSession.Steady 0 ringSystem :=
  .step false _ (.step false _ steady_ringSession rfl) rfl

theorem sums_agree_craft :
    craftSession.Reached ∧ craftSession.regionIn? "region" = some ringRegion ∧
      (∀ t ∈ craftTerms, t.1 ∉ ["region", "sum", "built"] ∧ craftSession.Holds 0 t.1) ∧
      Answered craftSums.1 ∧
      (∃ p', craftSums.2.regionIn? "region" = some p' ∧
        p'.holding.region.weights = ⟨[0, 13, 8], [1, 9, 12]⟩) ∧
      (step false (.equal (.slot "region") (.slot "built")) craftSums.2).1.answer =
        .ok (.truth true) := by
  have hregion : craftSession.regionIn? "region" = some ringRegion := rfl
  have hterms : ∀ t ∈ craftTerms,
      t.1 ∉ ["region", "sum", "built"] ∧ craftSession.Holds 0 t.1 := by
    intro t ht
    have hname : t.1 = "other" := by
      rcases List.mem_cons.1 ht with rfl | ht
      · rfl
      · rw [List.mem_singleton.1 ht]
    rw [hname]
    exact ⟨by decide, craftRegion, rfl, rfl⟩
  obtain ⟨hanswered, p', q, hchained⟩ :=
    sums_agree false reached_craftSession hregion "sum" "built" (by decide) hterms
  have hweights : craftSession.sumWeights ringRegion.holding.region.weights craftTerms =
      ⟨[0, 13, 8], [1, 9, 12]⟩ := by decide +kernel
  have hequal := hchained.equal ringSystem (.text "s0")
    ⟨("other", 2), List.mem_cons_self, by decide⟩ steady_craftSession rfl
  exact ⟨reached_craftSession, hregion, hterms, hanswered,
    ⟨p', hchained.slot, hchained.weights.trans hweights⟩, hequal.1⟩

end Session

end RegionCalculus
