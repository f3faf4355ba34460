import RegionCalculus.Lts.Distinct

/-!
# Labelled transition systems

States, arcs between them that carry labels, and one state to start from. Collections come in
the order in which states and arcs were added, grouped as stated here.

* `Arc ι`: an arc with its source, target and label.
* `Lts ι`: the states, the arcs in the order in which they were added, and the initial state.
* `Lts.postset G u`: the arcs out of `u`, grouped by target; targets in the order of their first arc.
* `Lts.preset G v`: the arcs into `v`, grouped by source; sources in the order of their first arc.
* `Lts.grouped G`: all arcs, state by state.
* `Lts.alphabet G`: the labels in the order of their first arc.
* `Lts.Closed G`: every arc runs between states of `G`.
-/

namespace RegionCalculus
set_option autoImplicit false

structure Arc (ι : Type) where
  source : ι
  target : ι
  label : String
deriving DecidableEq, Inhabited

/-- A labelled transition system; the arcs stand in the order in which they were added. -/
structure Lts (ι : Type) where
  states : List ι := []
  arcs : List (Arc ι) := []
  initial : Option ι := none

variable {ι κ : Type}

namespace Arc

def map (f : ι → κ) (a : Arc ι) : Arc κ := ⟨f a.source, f a.target, a.label⟩

@[simp] theorem map_source (f : ι → κ) (a : Arc ι) : (a.map f).source = f a.source := rfl
@[simp] theorem map_target (f : ι → κ) (a : Arc ι) : (a.map f).target = f a.target := rfl
@[simp] theorem map_label (f : ι → κ) (a : Arc ι) : (a.map f).label = a.label := rfl

end Arc

namespace Lts

def map (f : ι → κ) (G : Lts ι) : Lts κ :=
  ⟨G.states.map f, G.arcs.map (Arc.map f), G.initial.map f⟩

@[simp] theorem map_states (f : ι → κ) (G : Lts ι) : (G.map f).states = G.states.map f := rfl
@[simp] theorem map_arcs (f : ι → κ) (G : Lts ι) : (G.map f).arcs = G.arcs.map (Arc.map f) := rfl
@[simp] theorem map_initial (f : ι → κ) (G : Lts ι) : (G.map f).initial = G.initial.map f := rfl

def Closed (G : Lts ι) : Prop := ∀ a ∈ G.arcs, a.source ∈ G.states ∧ a.target ∈ G.states

def alphabet (G : Lts ι) : List String := distinct (G.arcs.map Arc.label)

theorem mem_alphabet {G : Lts ι} {e : String} : e ∈ G.alphabet ↔ ∃ a ∈ G.arcs, a.label = e := by
  simp [alphabet]

variable [DecidableEq ι]

/-- The arcs from `u` to `v`, in the order in which they were added. -/
def parallel (G : Lts ι) (u v : ι) : List (Arc ι) :=
  G.arcs.filter fun a => a.source = u ∧ a.target = v

/-- The targets of the arcs out of `u`, in the order of the first arc to each. -/
def successors (G : Lts ι) (u : ι) : List ι :=
  distinct ((G.arcs.filter (·.source = u)).map Arc.target)

/-- The sources of the arcs into `v`, in the order of the first arc from each. -/
def predecessors (G : Lts ι) (v : ι) : List ι :=
  distinct ((G.arcs.filter (·.target = v)).map Arc.source)

def postset (G : Lts ι) (u : ι) : List (Arc ι) := (G.successors u).flatMap fun v => G.parallel u v

def preset (G : Lts ι) (v : ι) : List (Arc ι) := (G.predecessors v).flatMap fun u => G.parallel u v

def grouped (G : Lts ι) : List (Arc ι) := G.states.flatMap G.postset

/-! ## Membership -/

@[simp] theorem mem_parallel {G : Lts ι} {u v : ι} {a : Arc ι} :
    a ∈ G.parallel u v ↔ a ∈ G.arcs ∧ a.source = u ∧ a.target = v := by
  simp [parallel]

@[simp] theorem mem_successors {G : Lts ι} {u v : ι} :
    v ∈ G.successors u ↔ ∃ a ∈ G.arcs, a.source = u ∧ a.target = v := by
  simp [successors, and_assoc]

@[simp] theorem mem_predecessors {G : Lts ι} {u v : ι} :
    u ∈ G.predecessors v ↔ ∃ a ∈ G.arcs, a.target = v ∧ a.source = u := by
  simp [predecessors, and_assoc]

@[simp] theorem mem_postset {G : Lts ι} {u : ι} {a : Arc ι} :
    a ∈ G.postset u ↔ a ∈ G.arcs ∧ a.source = u := by
  simp only [postset, List.mem_flatMap, mem_successors, mem_parallel]
  constructor
  · rintro ⟨_, _, ha, hs, _⟩
    exact ⟨ha, hs⟩
  · rintro ⟨ha, hs⟩
    exact ⟨a.target, ⟨a, ha, hs, rfl⟩, ha, hs, rfl⟩

@[simp] theorem mem_preset {G : Lts ι} {v : ι} {a : Arc ι} :
    a ∈ G.preset v ↔ a ∈ G.arcs ∧ a.target = v := by
  simp only [preset, List.mem_flatMap, mem_predecessors, mem_parallel]
  constructor
  · rintro ⟨_, _, ha, _, ht⟩
    exact ⟨ha, ht⟩
  · rintro ⟨ha, ht⟩
    exact ⟨a.source, ⟨a, ha, ht, rfl⟩, ha, rfl, ht⟩

theorem mem_grouped {G : Lts ι} (h : G.Closed) {a : Arc ι} : a ∈ G.grouped ↔ a ∈ G.arcs := by
  simp only [grouped, List.mem_flatMap, mem_postset]
  exact ⟨fun ⟨_, _, ha, _⟩ => ha, fun ha => ⟨a.source, (h a ha).1, ha, rfl⟩⟩

end Lts

end RegionCalculus
