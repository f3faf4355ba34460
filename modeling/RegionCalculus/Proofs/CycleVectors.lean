import RegionCalculus.Proofs.ConsistentRegions
import RegionCalculus.Proofs.SpanningTrees

/-!
# Closed walks as sums of cycles

The events along a closed walk, those of backward strides counted negatively, are an integer
combination of the cycle vectors: each extra arc contributes its vector as often as the walk follows it.

* `traversals a xs`: how often a walk follows `a` forwards, less how often it follows it backwards.
* `walkVector events xs`: the same for each event.
* `combination n terms`: the sum of vectors with their factors.
* `Lts.Walk.count_eq`: along any walk, the counts of an event are those of the root paths of its ends
  and those of the extra arcs that it follows.
* `Session.closed_walk_eq_combination`: for closed walks, the ends cancel.
-/

namespace RegionCalculus
set_option autoImplicit false

variable {ι : Type}

/-! ## Counting along walks -/

def Stride.sign (x : Stride ι) : Int := if x.forwards then 1 else -1

/-- The number of forward traversals of `a` less the number of backward ones. -/
def traversals [DecidableEq ι] (a : Arc ι) (xs : List (Stride ι)) : Int :=
  (xs.map fun x => if x.arc = a then x.sign else 0).sum

/-- The number of events with label `e` on the way, backward strides counted negatively. -/
def signedCount (e : String) (xs : List (Stride ι)) : Int :=
  walkEffect (fun l => if e = l then 1 else 0) xs

def walkVector (events : List String) (xs : List (Stride ι)) : List Int :=
  events.map fun e => signedCount e xs

/-- The sum of vectors with `n` entries, each with its factor. -/
def combination (n : Nat) (terms : List (Int × List Int)) : List Int :=
  terms.foldr (fun c v => List.zipWith (fun x y => c.1 * x + y) c.2 v) (noEvents n)

@[simp] theorem traversals_nil [DecidableEq ι] (a : Arc ι) : traversals a [] = 0 := rfl

@[simp] theorem traversals_cons [DecidableEq ι] (a : Arc ι) (x : Stride ι) (xs : List (Stride ι)) :
    traversals a (x :: xs) = (if x.arc = a then x.sign else 0) + traversals a xs := by
  simp [traversals]

@[simp] theorem signedCount_nil (e : String) : signedCount e ([] : List (Stride ι)) = 0 := rfl

@[simp] theorem signedCount_cons (e : String) (x : Stride ι) (xs : List (Stride ι)) :
    signedCount e (x :: xs) = x.sign * (if e = x.arc.label then 1 else 0) + signedCount e xs := by
  have heffect : x.effect (fun l => if e = l then 1 else 0) =
      x.sign * (if e = x.arc.label then 1 else 0) := by
    unfold Stride.effect Stride.sign
    cases x.forwards with
    | true => simp
    | false => by_cases he : e = x.arc.label <;> simp [he]
  rw [signedCount, walkEffect_cons, heffect, signedCount]

/-- Vectors that are functions of the event are combined event by event. -/
theorem combination_map {α : Type} (events : List String) (l : List α) (k : α → Int)
    (f : α → String → Int) :
    combination events.length (l.map fun a => (k a, events.map (f a))) =
      events.map fun e => (l.map fun a => k a * f a e).sum := by
  induction l with
  | nil =>
    rw [List.map_nil, combination, List.foldr_nil, noEvents, eq_comm, List.eq_replicate_iff]
    simp
  | cons a l ih =>
    have hfold : combination events.length ((a :: l).map fun a => (k a, events.map (f a))) =
        List.zipWith (fun x y => k a * x + y) (events.map (f a))
          (combination events.length (l.map fun a => (k a, events.map (f a)))) := rfl
    rw [hfold, ih, List.zipWith_map, List.zipWith_self]
    exact List.map_congr_left fun e _ => by rw [List.map_cons, List.sum_cons]

/-- A sum over distinct members that looks for one of them. -/
theorem sum_map_single {α : Type} [DecidableEq α] {l : List α} (hn : l.Nodup) (b : α) (k : Int)
    (f : α → Int) :
    (l.map fun a => (if b = a then k else 0) * f a).sum = if b ∈ l then k * f b else 0 := by
  have hother : ∀ a, a ≠ b → a ∈ l → (if b = a then k else 0) * f a = 0 := fun a hne _ => by
    rw [if_neg (Ne.symm hne), Int.zero_mul]
  rw [List.sum_map_eq_nsmul_single b _ hother, if_pos rfl]
  by_cases hb : b ∈ l
  · rw [if_pos hb, List.count_eq_one_of_mem hn hb, one_nsmul]
  · rw [if_neg hb, List.count_eq_zero_of_not_mem hb, zero_nsmul]

/-! ## Counts of cycles -/

variable [DecidableEq ι]

/-- The count of `e` on the root path to the source of an arc and on the arc itself, less that on the
root path to its target. -/
def Tree.cycleCount (t : Tree ι) (e : String) (a : Arc ι) : Int :=
  labelCount (t.rootPath a.source) e + (if e = a.label then 1 else 0) -
    labelCount (t.rootPath a.target) e

theorem Tree.cycleVector_eq (events : List String) (t : Tree ι) (a : Arc ι) :
    t.cycleVector events a = events.map fun e => t.cycleCount e a := rfl

namespace Lts

variable {G : Lts ι}

/-! ## Extra arcs stand once each -/

theorem nodup_postset (hG : G.Valid) (u : ι) : (G.postset u).Nodup := by
  refine List.nodup_flatMap.2 ⟨fun v _ => hG.nodup_arcs.filter _, ?_⟩
  refine (nodup_distinct _).imp fun {v w} hne => ?_
  intro a hv hw
  have htarget : a.target = v := (mem_parallel.1 hv).2.2
  have htarget' : a.target = w := (mem_parallel.1 hw).2.2
  exact hne (htarget.symm.trans htarget')

/-- Arcs out of different states are different. -/
theorem nodup_flatMap_postset (hG : G.Valid) {l : List ι} (hl : l.Nodup) :
    (l.flatMap G.postset).Nodup := by
  refine List.nodup_flatMap.2 ⟨fun u _ => nodup_postset hG u, hl.imp fun {u v} hne => ?_⟩
  intro a hu hv
  exact hne ((mem_postset.1 hu).2.symm.trans (mem_postset.1 hv).2)

theorem extraArcs_eq_filter (t : Tree ι) :
    t.extraArcs G = (t.states.flatMap G.postset).filter fun a => !t.hasArc a := by
  rw [Tree.extraArcs, List.filter_flatMap]

theorem nodup_extraArcs (hG : G.Valid) {t : Tree ι} (ht : t.Grown) : (t.extraArcs G).Nodup := by
  rw [extraArcs_eq_filter]
  exact (nodup_flatMap_postset hG ht.nodup_states).filter _

/-! ## The decomposition -/

variable {root : ι}

/-- Along an arc out of a reachable state, the counts of the root paths change by the label, up to the
cycle of the arc if it is an extra one. -/
theorem count_arc (hG : G.Valid) (e : String) {a : Arc ι} (ha : a ∈ G.arcs)
    (hs : G.Reach root a.source) :
    (if e = a.label then 1 else 0) =
      labelCount ((G.spanningTree root).rootPath a.target) e -
        labelCount ((G.spanningTree root).rootPath a.source) e +
        if a ∈ (G.spanningTree root).extraArcs G then (G.spanningTree root).cycleCount e a
        else 0 := by
  have hgrown := grown_spanningTree hG root
  by_cases htree : a ∈ (G.spanningTree root).arcs
  · have hextra : a ∉ (G.spanningTree root).extraArcs G := fun h =>
      ((mem_extraArcs_spanningTree hG).1 h).2.2 htree
    have hpath := hgrown.rootPath_target htree
    rw [if_neg hextra, hpath, labelCount_append, labelCount_singleton]
    omega
  · have hextra : a ∈ (G.spanningTree root).extraArcs G :=
      (mem_extraArcs_spanningTree hG).2 ⟨ha, hs, htree⟩
    rw [if_pos hextra, Tree.cycleCount]
    omega

/-- The count of an event along a walk: the counts of the root paths of its ends, and those of the
cycles whose extra arcs the walk follows. -/
theorem Walk.count_eq (hG : G.Valid) (e : String) {u v : ι} {xs : List (Stride ι)}
    (h : G.Walk root u xs v) :
    signedCount e xs =
      labelCount ((G.spanningTree root).rootPath v) e -
        labelCount ((G.spanningTree root).rootPath u) e +
        (((G.spanningTree root).extraArcs G).map fun a =>
          traversals a xs * (G.spanningTree root).cycleCount e a).sum := by
  have hn := nodup_extraArcs hG (grown_spanningTree hG root)
  induction h with
  | nil u => simp
  | @cons x xs v ha hs _ ih =>
    have harc := count_arc hG e ha hs
    have hsum : (((G.spanningTree root).extraArcs G).map fun a =>
          traversals a (x :: xs) * (G.spanningTree root).cycleCount e a).sum =
        (if x.arc ∈ (G.spanningTree root).extraArcs G then
          x.sign * (G.spanningTree root).cycleCount e x.arc else 0) +
        (((G.spanningTree root).extraArcs G).map fun a =>
          traversals a xs * (G.spanningTree root).cycleCount e a).sum := by
      rw [← sum_map_single hn, ← List.sum_map_add]
      simp only [traversals_cons, Int.add_mul]
    have hstride : x.sign * (if e = x.arc.label then 1 else 0) =
        labelCount ((G.spanningTree root).rootPath x.target) e -
          labelCount ((G.spanningTree root).rootPath x.source) e +
          if x.arc ∈ (G.spanningTree root).extraArcs G then
            x.sign * (G.spanningTree root).cycleCount e x.arc else 0 := by
      rw [harc]
      obtain ⟨a, forwards⟩ := x
      cases forwards <;> simp only [Stride.sign, Stride.source, Stride.target, Bool.false_eq_true,
        if_false, if_true] <;> split <;> omega
    rw [signedCount_cons, hsum, hstride, ih]
    omega

end Lts

/-! ## The cycle vectors of a utility -/

/-- The extra arcs as written, each with the vector of its cycle. -/
def System.writtenVectors (S : System) (init : Value) (events : List String) :
    List (Arc Value × List Int) :=
  ((S.lts.spanningTree init.key).extraArcs S.lts).map fun a =>
    ((S.treeFrom init).extraForm S a, (S.lts.spanningTree init.key).cycleVector events a)

theorem RegionUtility.InStep.writtenCycleVectors_answer {S : System} {U : RegionUtility}
    {init : Value} (hU : U.InStep S) (hS : S.lts.Valid) (hi : S.initial? = .ok init) :
    (writtenCycleVectors S U).answer = .ok (S.writtenVectors init U.events) := by
  have hcycles := hU.cycleVectors_answer.trans (System.cycleVectors?_eq hS hi hU.order)
  have htree := (hU.fills (cycleVectors_leads S U)).spanningTree_answer.trans
    (System.spanningTree?_of_initial hi)
  rw [writtenCycleVectors, Attempt.answer_bind_of_ok hcycles, Attempt.answer_bind_of_ok htree,
    Attempt.pure_apply, List.map_map]
  rfl

namespace System

variable {S : System} {init : Value}

theorem walkVector_eq_combination (hS : S.lts.Valid) (hi : S.initial? = .ok init)
    (events : List String) {x : Key} {xs : List (Stride Key)} (h : S.lts.Walk init.key x xs x) :
    walkVector events xs = combination events.length
      ((S.writtenVectors init events).map fun c =>
        (traversals (c.1.map Value.key) xs, c.2)) := by
  have hterms : (S.writtenVectors init events).map (fun c =>
        (traversals (c.1.map Value.key) xs, c.2)) =
      ((S.lts.spanningTree init.key).extraArcs S.lts).map fun a =>
        (traversals a xs, events.map fun e =>
          (S.lts.spanningTree init.key).cycleCount e a) := by
    rw [writtenVectors, List.map_map]
    refine List.map_congr_left fun a ha => ?_
    rw [Function.comp_apply, map_key_extraForms hi a ha, Tree.cycleVector_eq]
  rw [hterms, combination_map]
  refine List.map_congr_left fun e _ => ?_
  have hcount := h.count_eq hS e
  omega

end System

namespace Session

variable {u : UtilityId} {S : System} {s : Session} {p : PlacedUtility} {init : Value}

/-- Each closed walk along arcs out of reachable states has the events of the cycle vectors, every one
taken as often as the walk follows its extra arc. -/
theorem closed_walk_eq_combination (hs : s.Steady u S) (hi : S.initial? = .ok init)
    (hp : s.utility? u = some p) :
    ∃ t extra vectors, S.spanningTree? = .ok t ∧ t.extraArcs? S = .ok extra ∧
      (extra.map (Arc.map Value.key)).Nodup ∧
      (tellUtility p .cycleVectors s).answer = .ok (.arcVectors vectors) ∧
      vectors.map (·.1) = extra ∧
      ∀ x xs, S.lts.Walk init.key x xs x →
        walkVector p.utility.events xs =
          combination p.utility.events.length
            (vectors.map fun c => (traversals (c.1.map Value.key) xs, c.2)) := by
  obtain ⟨U, hU⟩ := hs.settled
  obtain rfl : p = ⟨u, U, S⟩ := Option.some.inj (hp.symm.trans hU.placed)
  have hanswer := hU.kept.writtenCycleVectors_answer hs.valid hi
  refine ⟨S.treeFrom init, _, S.writtenVectors init U.events,
    System.spanningTree?_of_initial hi, System.extraArcs?_treeFrom hs.valid hi, ?_, ?_, ?_,
    fun x xs h => System.walkVector_eq_combination hs.valid hi U.events h⟩
  · rw [System.map_key_map_extraForm hi]
    exact Lts.nodup_extraArcs hs.valid (Lts.grown_spanningTree hs.valid init.key)
  · exact (Attempt.answer_bind_pure _ _ _).trans (congrArg (Except.map Answer.arcVectors) hanswer)
  · rw [System.writtenVectors, List.map_map]
    rfl

/-- The utility of the ring as it was made. -/
def ringUtility : PlacedUtility := ⟨0, ringRegion.holding.utility, ringSystem⟩

theorem closed_walk_eq_combination_ring :
    ringSession.Steady 0 ringSystem ∧ ringSystem.initial? = .ok (.text "s0") ∧
      ringSession.utility? 0 = some ringUtility ∧
      ∃ t extra vectors, ringSystem.spanningTree? = .ok t ∧ t.extraArcs? ringSystem = .ok extra ∧
        (extra.map (Arc.map Value.key)).Nodup ∧
        (tellUtility ringUtility .cycleVectors ringSession).answer = .ok (.arcVectors vectors) ∧
        vectors.map (·.1) = extra ∧
        ∀ x xs, ringSystem.lts.Walk (Value.text "s0").key x xs x →
          walkVector ["a", "b", "c"] xs =
            combination 3 (vectors.map fun c => (traversals (c.1.map Value.key) xs, c.2)) :=
  ⟨steady_ringSession, rfl, rfl, closed_walk_eq_combination steady_ringSession rfl rfl⟩

end Session

end RegionCalculus
