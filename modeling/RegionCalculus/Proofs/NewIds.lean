import RegionCalculus.Proofs.FailedChanges
import RegionCalculus.Proofs.Origins

/-!
# New ids

A request for a new id tries the numbers from the counter of the system on, until it comes to one whose
id is no state. The counter is never set back, and it stays at the number that was issued last. But
every number below it has been tried before, and no state is ever removed. So the number that is found
is the least whose id is no state, and nothing else that was asked for before has a say in it.

* `System.Tries S m n`: one turn of the search.
* `System.tries_iff`: how far the search can come.
* `System.Counted S`: the ids of all numbers below the counter are states. It holds of every system that
  operations make (`Made.counted`).
* `System.Issues S n`: a request for a new id ends at the number `n`.
* `Session.new_ids_least`: what becomes of a request in a session.
-/

namespace RegionCalculus
set_option autoImplicit false

open Attempt

namespace System

variable {S S' : System} {m n : Nat}

/-! ## The search -/

/-- One turn of the search: the id of a number is a state, so the next number is tried. -/
inductive Tries (S : System) : Nat → Nat → Prop
  | next {n : Nat} : S.Has (numbered n) → Tries S n (n + 1)

/-- The search comes as far as the ids are states. -/
theorem tries_iff : Relation.ReflTransGen S.Tries m n ↔
    m ≤ n ∧ ∀ k, m ≤ k → k < n → S.Has (numbered k) := by
  constructor
  · intro h
    induction h with
    | refl => exact ⟨Nat.le_refl m, fun k hk hlt => absurd hk (Nat.not_le.2 hlt)⟩
    | tail _ hstep ih =>
      cases hstep with
      | next hn =>
        obtain ⟨hle, htaken⟩ := ih
        refine ⟨by omega, fun k hk hlt => ?_⟩
        rcases Nat.lt_succ_iff_lt_or_eq.1 hlt with hlt | rfl
        · exact htaken k hk hlt
        · exact hn
  · rintro ⟨hle, htaken⟩
    induction n, hle using Nat.le_induction with
    | base => exact .refl
    | succ n hle ih =>
      have hbefore : Relation.ReflTransGen S.Tries m n :=
        ih fun k hk hlt => htaken k hk (by omega)
      exact hbefore.tail (.next (htaken n hle (Nat.lt_succ_self n)))

/-- The number that is found is one of the `size + 1` numbers that are tried at most, and those before
it are not free. -/
theorem freeNumber_spec (S : System) : S.counter ≤ S.freeNumber ∧
    S.freeNumber ≤ S.counter + S.size ∧
      ∀ k, S.counter ≤ k → k < S.freeNumber → S.Has (numbered k) := by
  obtain ⟨n, hn, hfree⟩ := S.exists_free_number
  unfold freeNumber
  cases hf : (List.range' S.counter (S.size + 1)).find? fun n => ¬ S.Has (numbered n) with
  | none =>
    have hnone := List.find?_eq_none.1 hf n hn
    simp [hfree] at hnone
  | some m =>
    obtain ⟨_, hmem, hbefore⟩ := List.find?_range'_eq_some.1 hf
    rw [List.mem_range'_1] at hmem
    refine ⟨hmem.1, ?_, fun k hk hlt => ?_⟩
    · rw [Option.getD_some]
      omega
    · simpa using hbefore k hk hlt

/-! ## The counter -/

/-- The ids of all numbers below the counter are states. -/
def Counted (S : System) : Prop := ∀ n < S.counter, S.Has (numbered n)

theorem counted_new (name : String) : Counted { name } := fun n hn => absurd hn (Nat.not_lt_zero n)

/-- The counter and the states are all that counts. -/
theorem Counted.of_eq (hS : S.Counted) (hcounter : S'.counter = S.counter)
    (hstates : S'.written.states = S.written.states) : S'.Counted := by
  intro n hn
  rw [hcounter] at hn
  rw [Has, lts_states, hstates]
  exact hS n hn

/-- No number below the one that is found is free. -/
theorem Counted.taken (hS : S.Counted) (hn : n < S.freeNumber) : S.Has (numbered n) := by
  rcases Nat.lt_or_ge n S.counter with hlt | hge
  · exact hS n hlt
  · exact S.freeNumber_spec.2.2 n hge hn

theorem Counted.createState (hS : S.Counted) (v : Value) : (createState v S).state.Counted := by
  by_cases hnull : v = .null
  · subst hnull
    rw [createState_null]
    intro n hn
    exact has_addState.2 (.inl (hS.taken hn))
  · rw [createState_given hnull]
    split
    · exact hS
    · intro n hn
      exact has_addState.2 (.inl (hS n hn))

theorem Counted.createArc (hS : S.Counted) (source target label : Value) :
    (createArc source target label S).state.Counted := by
  unfold System.createArc
  split
  · unfold addArc
    split
    · exact hS
    · exact hS.of_eq rfl rfl
  · exact hS

theorem Counted.setInitial (hS : S.Counted) (v : Value) : (setInitial v S).state.Counted := by
  unfold System.setInitial
  split
  · exact hS.of_eq rfl rfl
  · exact hS

theorem Operation.counted (h : Operation S S') (hS : S.Counted) : S'.Counted := by
  cases h with
  | createState v => exact hS.createState v
  | createArc source target label => exact hS.createArc source target label
  | setInitial v => exact hS.setInitial v

theorem Made.counted (hS : S.Made) : S.Counted := by
  obtain ⟨name, h⟩ := hS
  induction h with
  | refl => exact counted_new name
  | tail _ hstep ih => exact hstep.counted ih

/-! ## Requests -/

/-- A request for a new id: the search ends at the number `n`, after one turn for each state at most,
and no smaller number is free. The id of `n` is answered, and added to the states. -/
structure Issues (S : System) (n : Nat) : Prop where
  search : Relation.ReflTransGen S.Tries S.counter n
  ends : ∀ m, ¬ S.Tries n m
  turns : n ≤ S.counter + S.size
  least : IsLeast {m | ¬ S.Has (numbered m)} n
  outcome : createState .null S =
    ⟨.ok (numbered n), { S.addState (numbered n) with counter := n }, []⟩

theorem Made.issues (hS : S.Made) : S.Issues S.freeNumber where
  search := tries_iff.2 ⟨S.freeNumber_spec.1, S.freeNumber_spec.2.2⟩
  ends := by
    intro m htries
    cases htries with
    | next hhas => exact S.not_has_freeNumber hhas
  turns := S.freeNumber_spec.2.1
  least := by
    refine ⟨S.not_has_freeNumber, fun m hm => ?_⟩
    by_contra hlt
    exact hm (hS.counted.taken (Nat.not_le.1 hlt))
  outcome := S.createState_null

/-- Systems with the same states issue the same number, whatever their counters say. -/
theorem Made.freeNumber_eq (hS : S.Made) (hS' : S'.Made)
    (hstates : ∀ k, k ∈ S'.lts.states ↔ k ∈ S.lts.states) : S'.freeNumber = S.freeNumber := by
  have hfree : {m | ¬ S'.Has (numbered m)} = {m | ¬ S.Has (numbered m)} :=
    Set.ext fun m => not_congr (hstates (numbered m).key)
  have hleast := hS'.issues.least
  rw [hfree] at hleast
  exact hleast.unique hS.issues.least

end System

namespace Session

variable {s : Session} {on : SlotName} {i : SystemId} {S : System}

/-- In a session, a request for a new id is never refused. The search for it ends, and it gives the least
number whose id is not yet a state; any other system with the same states, whatever has been asked of
it, issues the same id. -/
theorem new_ids_least (hs : s.Reached) (hat : (systemAt on s).answer = .ok (i, S)) (watched : Bool) :
    ∃ n, S.Issues n ∧
      (step watched (.toSystem on (.createState .null)) s).1.answer =
        .ok (.value (.text s!"s{n}")) ∧
      (step watched (.toSystem on (.createState .null)) s).2 =
        s.setSystem i { S.addState (.text s!"s{n}") with counter := n } ∧
      ∀ S' : System, S'.Made → (∀ k, k ∈ S'.lts.states ↔ k ∈ S.lts.states) → S'.Issues n := by
  have hS : S.Made := hs.grounded.systems S (List.mem_of_getElem? (systemAt_ok hat).2)
  have hissues := hS.issues
  obtain ⟨hanswer, hstate⟩ := step_createState hat watched .null
  refine ⟨S.freeNumber, hissues, ?_, ?_, fun S' hS' hstates => ?_⟩
  · rw [hanswer, hissues.outcome]
    rfl
  · rw [hstate, hissues.outcome]
    rfl
  · rw [← hS.freeNumber_eq hS' hstates]
    exact hS'.issues

/-- A session in which new ids and given ones of the same form have taken turns. -/
def mixedSession : Session :=
  (run false [.newSystem "" (some "t"), .toSystem "t" (.createState .null),
    .toSystem "t" (.createStates [.text "s1", .text "s4", .null, .null])] {}).2

def mixedSystem : System where
  written := { states := [.text "s0", .text "s1", .text "s4", .text "s2", .text "s3"] }
  counter := 3

/-- The search goes on from the number 3, which was issued last, past the id that was given. -/
theorem new_ids_least_mixed :
    mixedSession.Reached ∧ (systemAt "t" mixedSession).answer = .ok (0, mixedSystem) ∧
      ∃ n, mixedSystem.Issues n ∧
        (step false (.toSystem "t" (.createState .null)) mixedSession).1.answer =
          .ok (.value (.text s!"s{n}")) ∧
        (step false (.toSystem "t" (.createState .null)) mixedSession).2 =
          mixedSession.setSystem 0
            { mixedSystem.addState (.text s!"s{n}") with counter := n } ∧
        ∀ S' : System, S'.Made → (∀ k, k ∈ S'.lts.states ↔ k ∈ mixedSystem.lts.states) →
          S'.Issues n := by
  have hs : mixedSession.Reached := Reached.empty.run false _
  have hat : (systemAt "t" mixedSession).answer = .ok (0, mixedSystem) := rfl
  exact ⟨hs, hat, new_ids_least hs hat false⟩

/-- The ids `s3`, issued last, and `s4`, given before, are states. -/
example : (step false (.toSystem "t" (.createState .null)) mixedSession).1.answer =
    .ok (.value (.text "s5")) := rfl

end Session

end RegionCalculus
