import RegionCalculus.Proofs.Attempts
import RegionCalculus.System.Basic

/-!
# Valid systems

Whatever is done to a system, it stays valid: states and arcs stand once each, arcs run between
states, and the initial state is a state.

* `Lts.Valid G`: the system is valid.
* `System.Change S S'`: one state more, one arc more, or another initial state.
* `System.Grows S S'`: `S'` comes from `S` by changes.
-/

namespace RegionCalculus
set_option autoImplicit false

variable {ι : Type}

/-- States and arcs stand once each, arcs run between states, and the initial state is one. -/
structure Lts.Valid (G : Lts ι) : Prop where
  nodup_states : G.states.Nodup
  nodup_arcs : G.arcs.Nodup
  closed : G.Closed
  initial_mem : ∀ s, G.initial = some s → s ∈ G.states

namespace Lts

theorem valid_empty : Valid ({} : Lts ι) where
  nodup_states := List.nodup_nil
  nodup_arcs := List.nodup_nil
  closed := fun _ ha => absurd ha List.not_mem_nil
  initial_mem := fun _ hs => by simp at hs

theorem Valid.add_state {G : Lts ι} (hG : G.Valid) {s : ι} (hs : s ∉ G.states) :
    Valid { G with states := G.states ++ [s] } where
  nodup_states := by
    refine List.nodup_append.2 ⟨hG.nodup_states, List.nodup_singleton s, ?_⟩
    intro a ha b hb e
    rw [e, List.mem_singleton.1 hb] at ha
    exact hs ha
  nodup_arcs := hG.nodup_arcs
  closed := fun a ha =>
    ⟨List.mem_append_left _ (hG.closed a ha).1, List.mem_append_left _ (hG.closed a ha).2⟩
  initial_mem := fun s hs => List.mem_append_left _ (hG.initial_mem s hs)

theorem Valid.add_arc {G : Lts ι} (hG : G.Valid) {a : Arc ι} (ha : a ∉ G.arcs)
    (hs : a.source ∈ G.states) (ht : a.target ∈ G.states) :
    Valid { G with arcs := G.arcs ++ [a] } where
  nodup_states := hG.nodup_states
  nodup_arcs := by
    refine List.nodup_append.2 ⟨hG.nodup_arcs, List.nodup_singleton a, ?_⟩
    intro b hb c hc e
    rw [e, List.mem_singleton.1 hc] at hb
    exact ha hb
  closed := by
    intro b hb
    rcases List.mem_append.1 hb with hb | hb
    · exact hG.closed b hb
    · rw [List.mem_singleton.1 hb]
      exact ⟨hs, ht⟩
  initial_mem := hG.initial_mem

theorem Valid.start_at {G : Lts ι} (hG : G.Valid) {s : ι} (hs : s ∈ G.states) :
    Valid { G with initial := some s } where
  nodup_states := hG.nodup_states
  nodup_arcs := hG.nodup_arcs
  closed := hG.closed
  initial_mem := fun r hr => by
    obtain rfl : s = r := by simpa using hr
    exact hs

end Lts

namespace System

/-! ## Changes -/

inductive Change : System → System → Prop
  | state {S : System} {v : Value} (counter : Nat) :
      ¬ S.Has v → Change S { S.addState v with counter }
  | arc {S : System} {a : Arc Value} :
      S.Has a.source → S.Has a.target → a.label ≠ "" → Change S (S.addArc a)
  | start {S : System} {v : Value} : S.Has v → Change S (S.startAt v)

def Grows : System → System → Prop := Relation.ReflTransGen Change

theorem Change.valid {S S' : System} (h : Change S S') (hS : S.lts.Valid) : S'.lts.Valid := by
  cases h with
  | @state v counter hv =>
    have hlts : System.lts { S.addState v with counter } =
        { S.lts with states := S.lts.states ++ [v.key] } := lts_addState S v
    rw [hlts]
    exact hS.add_state hv
  | @arc a hs ht _ =>
    rw [lts_addArc]
    split
    · exact hS
    · rename_i hnew
      exact hS.add_arc hnew hs ht
  | start hv =>
    rw [lts_startAt]
    exact hS.start_at hv

theorem Grows.valid {S S' : System} (h : S.Grows S') (hS : S.lts.Valid) : S'.lts.Valid := by
  induction h with
  | refl => exact hS
  | tail _ hstep ih => exact hstep.valid ih

/-! ## New ids -/

theorem numbered_key_injective : Function.Injective fun n => (numbered n).key := by
  intro m n h
  have htext : "s" ++ Nat.repr m = "s" ++ Nat.repr n := by simpa [numbered] using h
  exact Nat.repr_injective ((String.append_right_inj "s").1 htext)

/-- One of `size + 1` ids with different numbers is no state. -/
theorem exists_free_number (S : System) :
    ∃ n ∈ List.range' S.counter (S.size + 1), ¬ S.Has (numbered n) := by
  by_contra hall
  push Not at hall
  have hsub : (List.range' S.counter (S.size + 1)).map (fun n => (numbered n).key) ⊆
      S.lts.states := by
    intro k hk
    obtain ⟨n, hn, rfl⟩ := List.mem_map.1 hk
    exact hall n hn
  have hnodup : ((List.range' S.counter (S.size + 1)).map fun n => (numbered n).key).Nodup :=
    List.Nodup.map numbered_key_injective List.nodup_range'
  have hlen := (hnodup.subperm hsub).length_le
  simp only [List.length_map, List.length_range', lts_states, size] at hlen
  omega

theorem not_has_freeNumber (S : System) : ¬ S.Has (numbered S.freeNumber) := by
  obtain ⟨n, hn, hfree⟩ := S.exists_free_number
  unfold freeNumber
  cases hf : (List.range' S.counter (S.size + 1)).find? fun n => ¬ S.Has (numbered n) with
  | none =>
    have := List.find?_eq_none.1 hf n hn
    simp [hfree] at this
  | some m => simpa using List.find?_some hf

/-! ## The commands make changes -/

theorem createState_null (S : System) :
    createState .null S =
      ⟨.ok (numbered S.freeNumber),
        { S.addState (numbered S.freeNumber) with counter := S.freeNumber }, []⟩ := rfl

theorem createState_given {v : Value} (hv : v ≠ .null) (S : System) :
    createState v S =
      if S.Has v then ⟨.error (.stateExists v), S, []⟩ else ⟨.ok v, S.addState v, []⟩ := by
  cases v with
  | null => exact absurd rfl hv
  | _ => rfl

theorem createState_leads (v : Value) (S : System) : (createState v).Leads Change S := by
  by_cases hnull : v = .null
  · unfold Attempt.Leads
    rw [hnull, createState_null]
    exact .single (.state S.freeNumber S.not_has_freeNumber)
  · by_cases hv : S.Has v
    · exact .of_state_eq (by rw [createState_given hnull, if_pos hv])
    · unfold Attempt.Leads
      rw [createState_given hnull, if_neg hv]
      exact .single (.state S.counter hv)

theorem createStates_leads (vs : List Value) (S : System) : (createStates vs).Leads Change S :=
  .mapM createState_leads vs S

theorem checkArc_ok_iff {S : System} {source target label : Value} {a : Arc Value} :
    S.checkArc source target label = .ok a ↔ S.Has source ∧ S.Has target ∧
      ∃ l, l ≠ "" ∧ label = .text l ∧ a = ⟨source, target, l⟩ := by
  unfold checkArc require
  by_cases hs : S.Has source
  · by_cases ht : S.Has target
    · cases label with
      | text l =>
        by_cases hl : l = ""
        · simp [hs, ht, hl, label?, bind, Except.bind]
        · simp [hs, ht, hl, label?, bind, Except.bind, pure, Except.pure, eq_comm]
      | _ => simp [hs, ht, label?, bind, Except.bind]
    · simp [hs, ht, bind, Except.bind]
  · simp [hs, bind, Except.bind]

/-- An arc that passes the check runs between states and has a label. -/
theorem checkArc_ok {S : System} {source target label : Value} {a : Arc Value}
    (h : S.checkArc source target label = .ok a) :
    S.Has a.source ∧ S.Has a.target ∧ a.label ≠ "" := by
  obtain ⟨hs, ht, l, hl, rfl, rfl⟩ := checkArc_ok_iff.1 h
  exact ⟨hs, ht, hl⟩

theorem createArc_leads (source target label : Value) (S : System) :
    (createArc source target label).Leads Change S := by
  cases h : S.checkArc source target label with
  | error f => exact .of_state_eq (by simp [createArc, h])
  | ok a =>
    obtain ⟨hs, ht, hl⟩ := checkArc_ok h
    have hstate : (createArc source target label S).state = S.addArc a := by simp [createArc, h]
    unfold Attempt.Leads
    rw [hstate]
    exact .single (.arc hs ht hl)

theorem setInitial_leads (v : Value) (S : System) : (setInitial v).Leads Change S := by
  by_cases hv : S.Has v
  · have hstate : (setInitial v S).state = S.startAt v := by simp [setInitial, require, hv]
    unfold Attempt.Leads
    rw [hstate]
    exact .single (.start hv)
  · exact .of_state_eq (by simp [setInitial, require, hv])

theorem ensureState_leads (v : Value) (S : System) : (ensureState v).Leads Change S := by
  refine Attempt.Leads.state.bind fun S' _ => ?_
  by_cases hv : S'.Has v
  · rw [if_pos hv]
    exact .pure ()
  · rw [if_neg hv]
    exact (createState_leads v _).bind fun _ _ => .pure ()

theorem ensureArc_leads (triple : Value × Value × Value) (S : System) :
    (ensureArc triple).Leads Change S :=
  (ensureState_leads _ S).bind fun _ _ => (ensureState_leads _ _).bind fun _ _ =>
    (createArc_leads _ _ _ _).bind fun _ _ => .pure ()

theorem build_leads (triples : List (Value × Value × Value)) (initial : Value) (S : System) :
    (build triples initial).Leads Change S :=
  (createState_leads initial S).bind fun _ _ =>
    (Attempt.Leads.forM ensureArc_leads triples _).bind fun _ _ => setInitial_leads initial _

theorem valid_ofArcs {name : String} {triples : List (Value × Value × Value)} {initial : Value}
    {S : System} (h : ofArcs name triples initial = .ok S) : S.lts.Valid := by
  have hvalid : (build triples initial { name }).state.lts.Valid :=
    Grows.valid (build_leads triples initial { name }) Lts.valid_empty
  unfold ofArcs at h
  dsimp only at h
  split at h
  · rw [← Except.ok.inj h]
    exact hvalid
  · simp at h

end System

end RegionCalculus
