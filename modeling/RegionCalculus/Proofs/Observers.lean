import RegionCalculus.Proofs.Twins

/-!
# Watched sessions

A watched session looks at cycle consistency before a normal marking is taken. While no system of a
utility changes, this is seen in the notes only; a system that changes meanwhile makes a difference.

* `Builder.inconsistent_noted_iff`: when the inconsistent weights of a builder are noted.
* `Session.Undisturbed cs s`: no command of `cs` changes the system of a utility, and none is empty.
* `Session.run_watched`: an undisturbed session answers in the same way, watched or not.
* `Session.watched_run_differs`: a disturbed one that does not.
-/

namespace RegionCalculus
set_option autoImplicit false

open Attempt

/-! ## The note -/

theorem Attempt.mem_notes_bind {σ α β : Type} {x : Attempt σ α} {k : α → Attempt σ β} {s : σ}
    {n : Note} : n ∈ ((x >>= k) s).notes ↔
      n ∈ (x s).notes ∨ ∃ a, (x s).answer = .ok a ∧ n ∈ (k a (x s).state).notes := by
  rcases hx : x s with ⟨f | a, s', notes⟩
  · rw [bind_of_error hx]
    simp
  · rw [bind_of_ok hx]
    simp

/-- What comes last does not matter if it never leaves the note. -/
theorem Attempt.mem_notes_bind_of_quiet {σ α β : Type} {x : Attempt σ α} {k : α → Attempt σ β}
    {s : σ} {n : Note} (hk : ∀ a s', n ∉ (k a s').notes) :
    n ∈ ((x >>= k) s).notes ↔ n ∈ (x s).notes := by
  rw [mem_notes_bind]
  constructor
  · rintro (hn | ⟨a, _, hn⟩)
    · exact hn
    · exact absurd hn (hk a _)
  · exact .inl

namespace RegionUtility

variable {S : System} {U : RegionUtility}

theorem spanningTree_notes (S : System) (U : RegionUtility) :
    Note.inconsistentWeights ∉ (spanningTree S U).notes := by
  cases hU : U.tree with
  | some t => simp [spanningTree_of_some hU]
  | none =>
    cases ht : S.spanningTree? with
    | error f => simp [spanningTree_of_error hU ht]
    | ok t => simp [spanningTree_of_ok hU ht]

theorem parikhVectors_notes (S : System) (U : RegionUtility) :
    Note.inconsistentWeights ∉ (parikhVectors S U).notes := by
  cases hU : U.vectors with
  | some table => simp [parikhVectors_of_some hU]
  | none =>
    rw [parikhVectors_of_none hU, Attempt.mem_notes_bind, not_or]
    refine ⟨spanningTree_notes S U, ?_⟩
    rintro ⟨t, _, hn⟩
    cases hp : t.tree.parikhTable? U.events with
    | error gap => simp [hp] at hn
    | ok table =>
      simp only [hp] at hn
      cases List.mem_singleton.1 hn

theorem cycleVectors_notes (S : System) (U : RegionUtility) :
    Note.inconsistentWeights ∉ (cycleVectors S U).notes := by
  cases hU : U.cycles with
  | some cycles => simp [cycleVectors_of_some hU]
  | none =>
    rw [cycleVectors_of_none hU, Attempt.mem_notes_bind, not_or]
    refine ⟨parikhVectors_notes S U, ?_⟩
    rintro ⟨table, _, hn⟩
    rcases Attempt.mem_notes_bind.1 hn with hn | ⟨t, _, hn⟩
    · exact spanningTree_notes S _ hn
    · cases hx : t.tree.extraArcs? S.lts with
      | error m => simp [hx] at hn
      | ok extra =>
        cases hc : RegionCalculus.cycleVectors? U.events table extra with
        | error gap => simp [hx, hc] at hn
        | ok cycles =>
          simp only [hx, hc] at hn
          cases List.mem_singleton.1 hn

theorem normalMarkingFor_notes (S : System) (net : List Int) (U : RegionUtility) :
    Note.inconsistentWeights ∉ (normalMarkingFor S net U).notes := by
  unfold normalMarkingFor
  split
  · exact List.not_mem_nil
  · rw [Attempt.mem_notes_bind_of_quiet fun _ _ => List.not_mem_nil]
    exact parikhVectors_notes S U

end RegionUtility

namespace Builder

variable {B : Builder} {S : System} {U : RegionUtility}

theorem inspect_noted_iff : Note.inconsistentWeights ∈ (B.inspect S U).notes ↔
    (RegionUtility.isConsistent S B.weights.net U).answer = .ok false := by
  have hquiet : Note.inconsistentWeights ∉
      (RegionUtility.isConsistent S B.weights.net U).notes := by
    rw [RegionUtility.isConsistent, Attempt.mem_notes_bind_of_quiet fun _ _ => List.not_mem_nil]
    exact RegionUtility.cycleVectors_notes S U
  rw [inspect, Attempt.mem_notes_bind, or_iff_right hquiet]
  constructor
  · rintro ⟨consistent, hanswer, hn⟩
    cases consistent with
    | true => cases hn
    | false => exact hanswer
  · intro hanswer
    exact ⟨false, hanswer, List.mem_singleton_self _⟩

/-- Finishing a watched builder notes that its weights are inconsistent, exactly if they are. -/
theorem inconsistent_noted_iff (watched : Bool) :
    Note.inconsistentWeights ∈ (B.finishNormal S watched U).notes ↔
      watched = true ∧ (RegionUtility.isConsistent S B.weights.net U).answer = .ok false := by
  have hquiet : ∀ (_ : Unit) V, Note.inconsistentWeights ∉
      ((RegionUtility.normalMarkingFor S B.weights.net >>= fun m => Attempt.state >>= fun U =>
        Attempt.ofExcept (Region.ofWeights? B.utility U.size B.weights (some m))) V).notes := by
    intro _ V
    rw [Attempt.mem_notes_bind_of_quiet fun _ _ => List.not_mem_nil]
    exact RegionUtility.normalMarkingFor_notes S _ V
  rw [finishNormal, Attempt.mem_notes_bind_of_quiet hquiet]
  cases watched with
  | false => simp
  | true => simp [inspect_noted_iff]

end Builder

namespace Session

variable {s s' : Session}

/-! ## Undisturbed sessions -/

/-- No command changes the system of a utility, and no such system is without states. -/
def Undisturbed : List Command → Session → Prop
  | [], _ => True
  | c :: cs, s =>
    (∀ u S, s.systemOf u = some S → S.written.states.isEmpty = false ∧
      (step false c s).2.systemOf u = some S) ∧ Undisturbed cs (step false c s).2

/-- What utilities keep is what would be computed for their systems. -/
def InStep (s : Session) : Prop :=
  ∀ u p, s.utility? u = some p → p.utility.InStep p.system ∧ p.utility.Layered

theorem systemOf_eq (hs : View.withoutCycles.session s = View.withoutCycles.session s')
    (u : UtilityId) : s.systemOf u = s'.systemOf u := by
  have hsystem := congrArg (Option.map fun p => p.system) (View.utility?_map hs u)
  rw [Option.map_map, Option.map_map] at hsystem
  exact hsystem

theorem InStep.calm (h : s.InStep) (hs : s.Reached)
    (hstates : ∀ u S, s.systemOf u = some S → S.written.states.isEmpty = false) : s.Calm := by
  intro u p hp
  obtain ⟨hinStep, hlayered⟩ := h u p hp
  exact ⟨hs.valid hp, hstates u p.system (by rw [systemOf, hp]; rfl), hinStep, hlayered⟩

theorem InStep.step (h : s.InStep) (hs : s.Reached) (watched : Bool) (c : Command)
    (hsame : ∀ u S, s.systemOf u = some S → (step watched c s).2.systemOf u = some S) :
    (step watched c s).2.InStep := by
  intro u p hp
  rcases step_utility?_cases hs watched c hp with
    (⟨U, hU, hfills⟩ | ⟨U, hblank, hfills⟩) | ⟨S, hold, _⟩
  · obtain ⟨hinStep, hlayered⟩ := h u _ hU
    exact ⟨hinStep.fills hfills, hlayered.fills hfills⟩
  · exact ⟨hblank.inStep.fills hfills, hblank.layered.fills hfills⟩
  · have hbefore : s.systemOf u = some S := by
      rw [systemOf, hold]
      rfl
    have hafter := hsame u S hbefore
    rw [systemOf, hp] at hafter
    obtain rfl : p.system = S := Option.some.inj hafter
    exact h u p hold

/-- Sessions that differ in cycle vectors only go on alike while they are undisturbed. -/
theorem run_alike (cs : List Command) (hs : s.Reached) (hs' : s'.Reached)
    (hview : View.withoutCycles.session s = View.withoutCycles.session s') (h : s.InStep)
    (h' : s'.InStep) (hcs : Undisturbed cs s) :
    (run true cs s').1.map Result.answer = (run false cs s).1.map Result.answer := by
  induction cs generalizing s s' with
  | nil => rfl
  | cons c cs ih =>
    obtain ⟨hcalm, hrest⟩ := hcs
    have hstates : ∀ u S, s'.systemOf u = some S → S.written.states.isEmpty = false :=
      fun u S hS => (hcalm u S (systemOf_eq hview u ▸ hS)).1
    obtain ⟨hanswer, hafter⟩ := perform_alike hview (h.calm hs fun u S hS => (hcalm u S hS).1)
      (h'.calm hs' hstates) c
    have hsame : ∀ u S, s'.systemOf u = some S → (step true c s').2.systemOf u = some S := by
      intro u S hS
      have hunwatched := (hcalm u S (systemOf_eq hview u ▸ hS)).2
      exact (systemOf_eq hafter u).symm.trans hunwatched
    have hothers := ih (.step false c hs) (.step true c hs') hafter
      (h.step hs false c fun u S hS => (hcalm u S hS).2) (h'.step hs' true c hsame) hrest
    exact congrArg₂ List.cons hanswer.symm hothers

/-- In an undisturbed session, every command is answered whether it is watched or not, and in the
same way. -/
theorem run_watched (cs : List Command) (h : Undisturbed cs {}) :
    (run true cs {}).1.map Result.answer = (run false cs {}).1.map Result.answer := by
  have hempty : InStep {} := fun u p hp => by cases hp
  exact run_alike cs .empty .empty rfl hempty hempty h

def ringCommands : List Command :=
  [.systemOfArcs [(.text "s0", .text "a", .text "s1"), (.text "s1", .text "b", .text "s2"),
      (.text "s2", .text "a", .text "s0"), (.text "s1", .text "c", .text "s1"),
      (.text "s3", .text "b", .text "s0")] (.text "s0") "ring" (some "lts"),
    .newUtility "lts" none (some "utility"),
    .newRegion "utility" [.integer 0, .integer 2, .integer 0] [.integer 1, .integer 0, .integer 0]
      .null (some "region"),
    .toRegion "region" (.purify none)]

theorem run_watched_ring : Undisturbed ringCommands {} ∧
    (run true ringCommands {}).1.map Result.answer =
      (run false ringCommands {}).1.map Result.answer := by
  have hpurify : (perform false (.toRegion "region" (.purify none))).Leads Touch ringSession :=
    regionAt_leads fun p hp => tellRegion_leads hp false _
  have hring : Undisturbed ringCommands {} := by
    refine ⟨fun u S h => ?_, fun u S h => ?_, fun u S h => ?_, fun u S h => ?_, trivial⟩
    · cases h
    · cases h
    · cases u with
      | zero =>
        obtain rfl := Option.some.inj h
        exact ⟨rfl, rfl⟩
      | succ u => cases h
    · cases u with
      | zero =>
        obtain rfl := Option.some.inj h
        exact ⟨rfl, systemOf_of_touches hpurify h⟩
      | succ u => cases h
  exact ⟨hring, run_watched ringCommands hring⟩

/-! ## A disturbed session -/

def disturbedCommands : List Command :=
  [.systemOfArcs [(.text "s0", .text "a", .text "s1")] (.text "s0") "" (some "lts"),
    .newUtility "lts" none (some "utility"),
    .newBuilder "utility" (some [.integer 1]) (some [.integer 0]) (some "builder"),
    .toBuilder "builder" (.finishNormal (some "region")),
    .toSystem "lts" (.createArc (.text "s1") (.text "s0") (.text "a")),
    .toRegion "region" .isConsistent,
    .newUtility "lts" none (some "second"),
    .toSystem "lts" (.createArc (.text "s0") (.text "s0") (.text "z")),
    .newBuilder "second" (some [.integer 1]) (some [.integer 0]) (some "late"),
    .toBuilder "late" (.finishNormal none)]

theorem watched_run_differs : ¬ ∀ cs : List Command,
    (run true cs {}).1.map Result.answer = (run false cs {}).1.map Result.answer := by
  intro hall
  have hsucceed := congrArg (List.map Except.isOk) (hall disturbedCommands)
  revert hsucceed
  decide +kernel

end Session

end RegionCalculus
