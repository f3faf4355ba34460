import RegionCalculus.Lts.Basic

/-!
# Searching a labelled transition system

A search follows the arcs that wait in a list, one at a time. An arc to a state not seen before
discovers that state, and the arcs out of it join those that wait; any other arc is discarded.

* `Discipline`: whether the newest or the oldest arcs are followed first.
* `Visit ι`: an arc that was followed, with whether it discovered its target.
* `Lts.explore G d unseen waiting`: the visits of a search, in order.
* `Lts.discoveries G d root`: the arcs by which a search from `root` discovers states.
* `Lts.reachable G root`: the states that a search from `root` finds, in the order of the states.

Each visit lowers the number of arcs that wait or can still come to wait by exactly one
(`workload_discover`), so a search ends.
-/

namespace RegionCalculus
set_option autoImplicit false

inductive Discipline where
  | newestFirst
  | oldestFirst
deriving DecidableEq

structure Visit (ι : Type) where
  arc : Arc ι
  discovers : Bool
deriving DecidableEq

variable {ι : Type}

/-- The waiting arcs, first to be followed first, after the arcs `fresh` have joined them. Of
several arcs that join together, the newest is the last. -/
def Discipline.join : Discipline → List (Arc ι) → List (Arc ι) → List (Arc ι)
  | .newestFirst, fresh, waiting => fresh.reverse ++ waiting
  | .oldestFirst, fresh, waiting => waiting ++ fresh

@[simp] theorem Discipline.length_join (d : Discipline) (fresh waiting : List (Arc ι)) :
    (d.join fresh waiting).length = fresh.length + waiting.length := by
  cases d <;> simp [join, Nat.add_comm]

@[simp] theorem Discipline.mem_join {d : Discipline} {fresh waiting : List (Arc ι)} {a : Arc ι} :
    a ∈ d.join fresh waiting ↔ a ∈ fresh ∨ a ∈ waiting := by
  cases d <;> simp [join, or_comm]

namespace Lts

variable [DecidableEq ι]

/-! ## The measure of a search -/

/-- The number of arcs out of the listed states. -/
def outDegree (G : Lts ι) : List ι → Nat
  | [] => 0
  | u :: rest => (G.postset u).length + G.outDegree rest

/-- Taking a state out of a list takes its arcs out of the number. -/
theorem outDegree_erase (G : Lts ι) {l : List ι} {u : ι} (h : u ∈ l) :
    (G.postset u).length + G.outDegree (l.erase u) = G.outDegree l := by
  induction l with
  | nil => simp at h
  | cons v l ih =>
    by_cases hv : v = u
    · simp [hv, outDegree]
    · have hu : u ∈ l := by simpa [Ne.symm hv] using h
      rw [List.erase_cons_tail (by simpa using hv)]
      simp only [outDegree, ← ih hu]
      omega

/-- The number of arcs that wait or can still come to wait. -/
def workload (G : Lts ι) (unseen : List ι) (waiting : List (Arc ι)) : Nat :=
  G.outDegree unseen + waiting.length

theorem workload_discover (G : Lts ι) (d : Discipline) {unseen : List ι} {a : Arc ι}
    (rest : List (Arc ι)) (h : a.target ∈ unseen) :
    G.workload (unseen.erase a.target) (d.join (G.postset a.target) rest) + 1 =
      G.workload unseen (a :: rest) := by
  have := G.outDegree_erase h
  simp only [workload, Discipline.length_join, List.length_cons]
  omega

/-! ## The search -/

/-- The visits of a search, in order. The states in `unseen` are those not seen yet, and the arcs
in `waiting` are followed from the front. -/
def explore (G : Lts ι) (d : Discipline) (unseen : List ι) (waiting : List (Arc ι)) :
    List (Visit ι) :=
  match waiting with
  | [] => []
  | a :: rest =>
    if a.target ∈ unseen then
      ⟨a, true⟩ :: G.explore d (unseen.erase a.target) (d.join (G.postset a.target) rest)
    else ⟨a, false⟩ :: G.explore d unseen rest
termination_by G.workload unseen waiting
decreasing_by
  · have := G.workload_discover d rest ‹a.target ∈ unseen›
    omega
  · simp [workload]

/-- The visits of a search from `root`. -/
def search (G : Lts ι) (d : Discipline) (root : ι) : List (Visit ι) :=
  G.explore d (G.states.erase root) (d.join (G.postset root) [])

def discoveries (G : Lts ι) (d : Discipline) (root : ι) : List (Arc ι) :=
  ((G.search d root).filter (·.discovers)).map (·.arc)

/-- The states that a search from `root` finds, in the order of discovery. -/
def found (G : Lts ι) (d : Discipline) (root : ι) : List ι :=
  root :: (G.discoveries d root).map Arc.target

def reachable (G : Lts ι) (root : ι) : List ι :=
  let found := G.found .oldestFirst root
  G.states.filter (· ∈ found)

@[simp] theorem mem_reachable {G : Lts ι} {root s : ι} :
    s ∈ G.reachable root ↔ s ∈ G.states ∧ s ∈ G.found .oldestFirst root := by
  simp [reachable]

/-! ## One equation per case -/

@[simp] theorem explore_nil (G : Lts ι) (d : Discipline) (unseen : List ι) :
    G.explore d unseen [] = [] := by
  rw [explore]

theorem explore_discover (G : Lts ι) (d : Discipline) {unseen : List ι} {a : Arc ι}
    {rest : List (Arc ι)} (h : a.target ∈ unseen) :
    G.explore d unseen (a :: rest) =
      ⟨a, true⟩ :: G.explore d (unseen.erase a.target) (d.join (G.postset a.target) rest) := by
  rw [explore, if_pos h]

theorem explore_discard (G : Lts ι) (d : Discipline) {unseen : List ι} {a : Arc ι}
    {rest : List (Arc ι)} (h : a.target ∉ unseen) :
    G.explore d unseen (a :: rest) = ⟨a, false⟩ :: G.explore d unseen rest := by
  rw [explore, if_neg h]

/-! ## What is visited -/

/-- A search follows only arcs that wait at the start and arcs of the system. -/
theorem mem_of_mem_explore {G : Lts ι} {d : Discipline} {unseen : List ι} {waiting : List (Arc ι)}
    {v : Visit ι} (h : v ∈ G.explore d unseen waiting) : v.arc ∈ waiting ∨ v.arc ∈ G.arcs := by
  fun_induction explore G d unseen waiting with
  | case1 => simp at h
  | case2 unseen a rest hu ih =>
    rcases List.mem_cons.1 h with rfl | h
    · exact .inl List.mem_cons_self
    · rcases ih h with h | h
      · rcases Discipline.mem_join.1 h with h | h
        · exact .inr (mem_postset.1 h).1
        · exact .inl (List.mem_cons_of_mem _ h)
      · exact .inr h
  | case3 unseen a rest hu ih =>
    rcases List.mem_cons.1 h with rfl | h
    · exact .inl List.mem_cons_self
    · exact (ih h).imp_left (List.mem_cons_of_mem _)

/-- The arcs by which states are discovered are arcs of the system. -/
theorem mem_of_mem_discoveries {G : Lts ι} {d : Discipline} {root : ι} {a : Arc ι}
    (h : a ∈ G.discoveries d root) : a ∈ G.arcs := by
  simp only [discoveries, search, List.mem_map, List.mem_filter] at h
  obtain ⟨v, ⟨hv, _⟩, rfl⟩ := h
  rcases mem_of_mem_explore hv with h | h
  · rcases Discipline.mem_join.1 h with h | h
    · exact (mem_postset.1 h).1
    · simp at h
  · exact h

end Lts

end RegionCalculus
