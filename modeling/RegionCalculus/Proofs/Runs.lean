import Mathlib
import RegionCalculus.Lts.Basic

/-!
# Runs and walks

A run follows arcs forwards. A walk may follow an arc in either direction; going back along an arc
undoes the effect of its label.

* `Lts.Reach G root s`: the least set of states with `root` that the arcs of `G` do not leave.
* `Lts.Run G u as v`: the arcs `as` lead from `u` to `v`.
* `Lts.Walk G root u xs v`: the strides `xs` lead from `u` to `v`, along arcs out of states that can
  be reached from `root`.
* `runEffect w as`, `walkEffect w xs`: the sums of the label weights `w`, backward strides negative.
* `Lts.Potential G root w φ`: along every arc out of a reachable state, `φ` grows by the weight of
  the label.

A potential fixes the effect of all runs and walks (`Potential.run`, `Potential.walk`). Conversely, a
function that some run to each state realises is a potential as soon as either no closed walk has
an effect (`potential_of_closed_walks`) or runs to the same state agree (`potential_of_runs`).
-/

namespace RegionCalculus
set_option autoImplicit false

variable {ι : Type}

/-! ## Runs -/

namespace Lts

inductive Reach (G : Lts ι) (root : ι) : ι → Prop
  | root : Reach G root root
  | arc {a : Arc ι} : a ∈ G.arcs → Reach G root a.source → Reach G root a.target

/-- The arcs lead from the first state to the second, each from where the one before ended. -/
inductive Run (G : Lts ι) : ι → List (Arc ι) → ι → Prop
  | nil (u : ι) : Run G u [] u
  | cons {a : Arc ι} {as : List (Arc ι)} {v : ι} :
      a ∈ G.arcs → Run G a.target as v → Run G a.source (a :: as) v

theorem Run.append {G : Lts ι} {u v w : ι} {as bs : List (Arc ι)} (h : G.Run u as v)
    (h' : G.Run v bs w) : G.Run u (as ++ bs) w := by
  induction h with
  | nil => exact h'
  | cons ha _ ih => exact .cons ha (ih h')

theorem Run.concat {G : Lts ι} {u : ι} {as : List (Arc ι)} {a : Arc ι} (h : G.Run u as a.source)
    (ha : a ∈ G.arcs) : G.Run u (as ++ [a]) a.target :=
  h.append (.cons ha (.nil _))

theorem Run.reach {G : Lts ι} {root u v : ι} {as : List (Arc ι)} (h : G.Run u as v)
    (hu : G.Reach root u) : G.Reach root v := by
  induction h with
  | nil => exact hu
  | cons ha _ ih => exact ih (.arc ha hu)

/-- The reachable states are the least set with `root` that arcs do not leave. -/
theorem reach_iff_forall_closed {G : Lts ι} {root s : ι} :
    G.Reach root s ↔
      ∀ P : ι → Prop, P root → (∀ a ∈ G.arcs, P a.source → P a.target) → P s := by
  constructor
  · intro h P hroot harc
    induction h with
    | root => exact hroot
    | arc ha _ ih => exact harc _ ha ih
  · intro h
    exact h (G.Reach root) .root fun a ha hs => .arc ha hs

end Lts

/-! ## Walks -/

structure Stride (ι : Type) where
  arc : Arc ι
  forwards : Bool

namespace Stride

def source (x : Stride ι) : ι := if x.forwards then x.arc.source else x.arc.target

def target (x : Stride ι) : ι := if x.forwards then x.arc.target else x.arc.source

/-- The weight of the label, negative for a backward stride. -/
def effect (w : String → Int) (x : Stride ι) : Int :=
  if x.forwards then w x.arc.label else -w x.arc.label

end Stride

def runEffect (w : String → Int) (as : List (Arc ι)) : Int := (as.map fun a => w a.label).sum

def walkEffect (w : String → Int) (xs : List (Stride ι)) : Int := (xs.map (Stride.effect w)).sum

@[simp] theorem runEffect_nil (w : String → Int) : runEffect w ([] : List (Arc ι)) = 0 := rfl

@[simp] theorem runEffect_cons (w : String → Int) (a : Arc ι) (as : List (Arc ι)) :
    runEffect w (a :: as) = w a.label + runEffect w as := by
  simp [runEffect]

@[simp] theorem runEffect_append (w : String → Int) (as bs : List (Arc ι)) :
    runEffect w (as ++ bs) = runEffect w as + runEffect w bs := by
  simp [runEffect]

@[simp] theorem walkEffect_nil (w : String → Int) : walkEffect w ([] : List (Stride ι)) = 0 := rfl

@[simp] theorem walkEffect_cons (w : String → Int) (x : Stride ι) (xs : List (Stride ι)) :
    walkEffect w (x :: xs) = x.effect w + walkEffect w xs := by
  simp [walkEffect]

@[simp] theorem walkEffect_append (w : String → Int) (xs ys : List (Stride ι)) :
    walkEffect w (xs ++ ys) = walkEffect w xs + walkEffect w ys := by
  simp [walkEffect]

namespace Lts

inductive Walk (G : Lts ι) (root : ι) : ι → List (Stride ι) → ι → Prop
  | nil (u : ι) : Walk G root u [] u
  | cons {x : Stride ι} {xs : List (Stride ι)} {v : ι} :
      x.arc ∈ G.arcs → G.Reach root x.arc.source → Walk G root x.target xs v →
      Walk G root x.source (x :: xs) v

theorem Walk.append {G : Lts ι} {root u v w : ι} {xs ys : List (Stride ι)}
    (h : G.Walk root u xs v) (h' : G.Walk root v ys w) : G.Walk root u (xs ++ ys) w := by
  induction h with
  | nil => exact h'
  | cons ha hs _ ih => exact .cons ha hs (ih h')

/-- A run from a reachable state is a walk. -/
theorem Run.walk {G : Lts ι} {root u v : ι} {as : List (Arc ι)} (h : G.Run u as v)
    (hu : G.Reach root u) : G.Walk root u (as.map fun a => ⟨a, true⟩) v := by
  induction h with
  | nil u => exact .nil u
  | @cons a as v ha _ ih =>
    exact Walk.cons (x := ⟨a, true⟩) ha hu (ih (.arc ha hu))

/-- A run from a reachable state can be walked back. -/
theorem Run.walk_back {G : Lts ι} {root u v : ι} {as : List (Arc ι)} (h : G.Run u as v)
    (hu : G.Reach root u) : G.Walk root v (as.reverse.map fun a => ⟨a, false⟩) u := by
  induction h with
  | nil u => exact .nil u
  | @cons a as v ha _ ih =>
    have hback : G.Walk root a.target [⟨a, false⟩] a.source :=
      Walk.cons (x := ⟨a, false⟩) ha hu (.nil _)
    rw [List.reverse_cons, List.map_append]
    exact (ih (.arc ha hu)).append hback

end Lts

theorem walkEffect_forwards (w : String → Int) (as : List (Arc ι)) :
    walkEffect w (as.map fun a => ⟨a, true⟩) = runEffect w as := by
  induction as with
  | nil => rfl
  | cons a as ih =>
    rw [List.map_cons, walkEffect_cons, ih, runEffect_cons]
    rfl

theorem walkEffect_backwards (w : String → Int) (as : List (Arc ι)) :
    walkEffect w (as.reverse.map fun a => ⟨a, false⟩) = -runEffect w as := by
  induction as with
  | nil => rfl
  | cons a as ih =>
    have hstride : Stride.effect w (⟨a, false⟩ : Stride ι) = -w a.label := rfl
    rw [List.reverse_cons, List.map_append, walkEffect_append, ih, runEffect_cons, List.map_cons,
      List.map_nil, walkEffect_cons, walkEffect_nil, hstride]
    omega

/-! ## Potentials -/

namespace Lts

def Potential (G : Lts ι) (root : ι) (w : String → Int) (φ : ι → Int) : Prop :=
  ∀ a ∈ G.arcs, G.Reach root a.source → φ a.target = φ a.source + w a.label

/-- Some run to each reachable state has the effect that `φ` gives for it. -/
def Realised (G : Lts ι) (root : ι) (w : String → Int) (φ : ι → Int) : Prop :=
  ∀ s, G.Reach root s → ∃ as, G.Run root as s ∧ runEffect w as = φ s

variable {G : Lts ι} {root : ι} {w : String → Int} {φ : ι → Int}

theorem Potential.run (hφ : G.Potential root w φ) {u v : ι} {as : List (Arc ι)}
    (h : G.Run u as v) (hu : G.Reach root u) : φ v = φ u + runEffect w as := by
  induction h with
  | nil => simp
  | cons ha _ ih =>
    have hstep := hφ _ ha hu
    have hrest := ih (.arc ha hu)
    rw [runEffect_cons]
    omega

theorem Potential.walk (hφ : G.Potential root w φ) {u v : ι} {xs : List (Stride ι)}
    (h : G.Walk root u xs v) : φ v = φ u + walkEffect w xs := by
  induction h with
  | nil => simp
  | @cons x xs v ha hs _ ih =>
    have hx : φ x.target = φ x.source + x.effect w := by
      obtain ⟨a, forwards⟩ := x
      have hstep : φ a.target = φ a.source + w a.label := hφ a ha hs
      cases forwards with
      | true => exact hstep
      | false =>
        change φ a.source = φ a.target + -w a.label
        omega
    rw [walkEffect_cons]
    omega

/-- If no closed walk has an effect, a realised function is a potential: an arc is closed to a
walk by a run to its source and a run back from its target. -/
theorem potential_of_closed_walks (hr : G.Realised root w φ)
    (h : ∀ u xs, G.Walk root u xs u → walkEffect w xs = 0) : G.Potential root w φ := by
  intro a ha hs
  obtain ⟨as, hrun, heff⟩ := hr a.source hs
  obtain ⟨bs, hrun', heff'⟩ := hr a.target (.arc ha hs)
  have hclosed := ((hrun.concat ha).walk .root).append (hrun'.walk_back .root)
  have hzero := h root _ hclosed
  rw [walkEffect_append, walkEffect_forwards, walkEffect_backwards, runEffect_append, heff, heff',
    runEffect_cons, runEffect_nil] at hzero
  omega

/-- If every run to a state has the effect that `φ` gives for it, `φ` is a potential. -/
theorem potential_of_runs (hr : G.Realised root w φ)
    (h : ∀ s as, G.Run root as s → runEffect w as = φ s) : G.Potential root w φ := by
  intro a ha hs
  obtain ⟨as, hrun, heff⟩ := hr a.source hs
  have hnext := h a.target _ (hrun.concat ha)
  rw [runEffect_append, heff, runEffect_cons, runEffect_nil] at hnext
  omega

theorem potential_iff_closed_walks (hr : G.Realised root w φ) :
    G.Potential root w φ ↔ ∀ u xs, G.Walk root u xs u → walkEffect w xs = 0 := by
  refine ⟨fun hφ u xs h => ?_, potential_of_closed_walks hr⟩
  have := hφ.walk h
  omega

theorem potential_iff_runs (hr : G.Realised root w φ) (h0 : φ root = 0) :
    G.Potential root w φ ↔ ∀ s as, G.Run root as s → runEffect w as = φ s := by
  refine ⟨fun hφ s as h => ?_, potential_of_runs hr⟩
  have := hφ.run h .root
  omega

end Lts

end RegionCalculus
