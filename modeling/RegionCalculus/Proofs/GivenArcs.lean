import RegionCalculus.Proofs.CycleCounts
import RegionCalculus.Proofs.Origins

/-!
# Systems from given arcs

A system that is made of triples creates a state where it is first mentioned and an arc where it is first
given. So its lists can be read off the triples, and only their order shows in what order the triples
came and how often.

* `distinctBy f l`: the first member of `l` for each image under `f`.
* `Arc.triple a`, `mentions initial arcs`: the triple that names an arc, and the ids in the order in which
  they are mentioned.
* `System.LaidOut S name initial ids arcs`: `S` has been made by mentioning `ids` and giving `arcs`;
  `LaidOut.ensureState`, `LaidOut.ensureArc`, `LaidOut.forM`: how it goes on.
* `System.exists_ofArcs`: named arcs are not refused; `System.admissible_of_ofArcs`: others are.
* `System.Lists S name arcs initial`, `System.SameSets S S'`: what is read off the triples.
* `System.ofArcs_exactly`: a system is made of triples exactly if they name arcs, and lists those.
-/

namespace RegionCalculus
set_option autoImplicit false

open Attempt

/-! ## First members -/

section DistinctBy

variable {α β : Type} [DecidableEq β] {f : α → β}

/-- The members whose image differs from those of all earlier members. -/
def distinctBy (f : α → β) : List α → List α
  | [] => []
  | a :: rest => a :: (distinctBy f rest).filter (f · ≠ f a)

theorem map_distinctBy (f : α → β) (l : List α) : (distinctBy f l).map f = distinct (l.map f) := by
  induction l with
  | nil => rfl
  | cons a l ih =>
    rw [distinctBy, List.map_cons, List.map_cons, distinct_cons, ← ih, List.filter_map]
    rfl

theorem distinctBy_eq_self {l : List α} (h : (l.map f).Nodup) : distinctBy f l = l := by
  induction l with
  | nil => rfl
  | cons a l ih =>
    obtain ⟨hnew, hrest⟩ := List.nodup_cons.1 h
    rw [distinctBy, ih hrest, List.filter_eq_self.2]
    intro b hb
    simpa using fun e : f b = f a => hnew (e ▸ List.mem_map_of_mem hb)

/-- A further member changes the list only if its image is new. -/
theorem distinctBy_concat (f : α → β) (l : List α) (x : α) :
    distinctBy f (l ++ [x]) = if f x ∈ l.map f then distinctBy f l else distinctBy f l ++ [x] := by
  induction l with
  | nil => simp [distinctBy]
  | cons a l ih =>
    rw [List.cons_append, distinctBy, ih, distinctBy]
    by_cases hx : f x ∈ l.map f
    · rw [if_pos hx, if_pos (by rw [List.map_cons]; exact List.mem_cons_of_mem _ hx)]
    · rw [if_neg hx, List.filter_append]
      by_cases ha : f x = f a
      · rw [if_pos (by rw [List.map_cons, ha]; exact List.mem_cons_self)]
        simp [ha]
      · rw [if_neg (by rw [List.map_cons, List.mem_cons]; exact not_or.2 ⟨ha, hx⟩)]
        simp [ha]

end DistinctBy

/-! ## Triples -/

/-- A value has the key of a text only if it is that text. -/
theorem Value.key_eq_text_iff {v : Value} {l : String} : v.key = .text l ↔ v = .text l := by
  cases v with
  | text s => simp [key]
  | floating x => cases x <;> simp [key, floatingKey]
  | list items => cases items <;> simp [key, chain]
  | tuple items => cases items <;> simp [key, chain]
  | _ => simp [key]

theorem Value.ne_null_of_key_eq {v w : Value} (h : v.key = w.key) (hv : v ≠ .null) : w ≠ .null :=
  fun hw => hv (key_eq_null_iff.1 (h.trans (key_eq_null_iff.2 hw)))

/-- The triple that names an arc. -/
def Arc.triple (a : Arc Value) : Value × Value × Value := (a.source, .text a.label, a.target)

/-- What equality sees of a triple. -/
def tripleKey (t : Value × Value × Value) : Key × Key × Key := (t.1.key, t.2.1.key, t.2.2.key)

/-- The ids in the order in which they are mentioned: the initial state, then of each arc the source
before the target. -/
def mentions (initial : Value) (arcs : List (Arc Value)) : List Value :=
  initial :: arcs.flatMap fun a => [a.source, a.target]

theorem tripleKey_triple_inj {a b : Arc Value} :
    tripleKey a.triple = tripleKey b.triple ↔ a.map Value.key = b.map Value.key := by
  simp only [tripleKey, Arc.triple, Arc.map, Value.key, Prod.mk.injEq, Key.text.injEq, Arc.mk.injEq]
  tauto

/-- The arc has two states and a label. -/
structure Arc.Named (a : Arc Value) : Prop where
  source : a.source ≠ .null
  target : a.target ≠ .null
  label : a.label ≠ ""

/-- No id is `null`, and every label is a text that is not empty. -/
structure Admissible (triples : List (Value × Value × Value)) (initial : Value) : Prop where
  initial : initial ≠ .null
  ids : ∀ t ∈ triples, t.1 ≠ .null ∧ t.2.2 ≠ .null
  labels : ∀ t ∈ triples, ∃ l, l ≠ "" ∧ t.2.1 = .text l

section Triples

variable {triples triples' : List (Value × Value × Value)} {initial : Value} {arcs : List (Arc Value)}

theorem Admissible.exists_arcs (h : Admissible triples initial) :
    ∃ arcs : List (Arc Value), triples = arcs.map Arc.triple ∧ ∀ a ∈ arcs, a.Named := by
  obtain ⟨_, hids, hlabels⟩ := h
  induction triples with
  | nil => exact ⟨[], rfl, by simp⟩
  | cons t triples ih =>
    obtain ⟨harc, harcs⟩ := List.forall_mem_cons.1 hids
    obtain ⟨⟨l, hl, hlabel⟩, hrest⟩ := List.forall_mem_cons.1 hlabels
    obtain ⟨arcs, rfl, hnamed⟩ := ih harcs hrest
    refine ⟨⟨t.1, t.2.2, l⟩ :: arcs, ?_, List.forall_mem_cons.2 ⟨⟨harc.1, harc.2, hl⟩, hnamed⟩⟩
    rw [List.map_cons, Arc.triple, ← hlabel]

/-- Whether triples are admissible is seen by their keys. -/
theorem Admissible.of_keys (h : Admissible triples initial)
    (hkeys : ∀ k, k ∈ triples'.map tripleKey ↔ k ∈ triples.map tripleKey) :
    Admissible triples' initial := by
  have hfound : ∀ t' ∈ triples', ∃ t ∈ triples, tripleKey t = tripleKey t' := fun t' ht' =>
    List.mem_map.1 ((hkeys _).1 (List.mem_map_of_mem ht'))
  refine ⟨h.initial, fun t' ht' => ?_, fun t' ht' => ?_⟩
  · obtain ⟨t, ht, hkey⟩ := hfound t' ht'
    obtain ⟨hsource, hrest⟩ := Prod.mk.inj hkey
    obtain ⟨_, htarget⟩ := Prod.mk.inj hrest
    exact ⟨Value.ne_null_of_key_eq hsource (h.ids t ht).1,
      Value.ne_null_of_key_eq htarget (h.ids t ht).2⟩
  · obtain ⟨t, ht, hkey⟩ := hfound t' ht'
    obtain ⟨_, hrest⟩ := Prod.mk.inj hkey
    obtain ⟨hlabel, _⟩ := Prod.mk.inj hrest
    obtain ⟨l, hl, htext⟩ := h.labels t ht
    rw [htext] at hlabel
    exact ⟨l, hl, Value.key_eq_text_iff.1 hlabel.symm⟩

theorem mem_arcs_of_keys {arcs' : List (Arc Value)}
    (hkeys : ∀ k, k ∈ (arcs'.map Arc.triple).map tripleKey ↔
      k ∈ (arcs.map Arc.triple).map tripleKey) (a : Arc Key) :
    a ∈ arcs'.map (Arc.map Value.key) ↔ a ∈ arcs.map (Arc.map Value.key) := by
  have hsub : ∀ l l' : List (Arc Value),
      (∀ k ∈ (l.map Arc.triple).map tripleKey, k ∈ (l'.map Arc.triple).map tripleKey) →
        ∀ a ∈ l.map (Arc.map Value.key), a ∈ l'.map (Arc.map Value.key) := by
    intro l l' h
    refine List.forall_mem_map.2 fun b hb => ?_
    have hkey := h _ (List.mem_map_of_mem (List.mem_map_of_mem hb))
    rw [List.map_map] at hkey
    obtain ⟨c, hc, hsame⟩ := List.mem_map.1 hkey
    exact List.mem_map.2 ⟨c, hc, tripleKey_triple_inj.1 hsame⟩
  exact ⟨hsub _ _ (fun k => (hkeys k).1) a, hsub _ _ (fun k => (hkeys k).2) a⟩

theorem mem_mentions_keys {arcs : List (Arc Value)} {k : Key} :
    k ∈ (mentions initial arcs).map Value.key ↔
      k = initial.key ∨ ∃ a ∈ arcs.map (Arc.map Value.key), k = a.source ∨ k = a.target := by
  simp only [mentions, List.map_cons, List.mem_cons, List.map_flatMap, List.mem_flatMap,
    List.map_nil, List.not_mem_nil, or_false, List.mem_map, exists_exists_and_eq_and,
    Arc.map_source, Arc.map_target]

end Triples

/-! ## Systems as they are laid out -/

namespace System

variable {S : System} {name : String} {start : Option Value} {ids : List Value}
  {arcs : List (Arc Value)} {initial : Value}

/-- The states are those of `ids` in the order of first mention, and the arcs those of `arcs`. -/
structure LaidOut (S : System) (name : String) (start : Option Value) (ids : List Value)
    (arcs : List (Arc Value)) : Prop where
  name : S.name = name
  counter : S.counter = 0
  start : S.written.initial = start
  states : S.written.states = distinctBy Value.key ids
  arcs : S.written.arcs = distinctBy (Arc.map Value.key) arcs

namespace LaidOut

theorem has_iff (h : S.LaidOut name start ids arcs) {v : Value} :
    S.Has v ↔ v.key ∈ ids.map Value.key := by
  rw [Has, lts_states, h.states, map_distinctBy, mem_distinct]

theorem mem_arcs_iff (h : S.LaidOut name start ids arcs) {a : Arc Key} :
    a ∈ S.lts.arcs ↔ a ∈ arcs.map (Arc.map Value.key) := by
  rw [lts_arcs, h.arcs, map_distinctBy, mem_distinct]

theorem ensureState (h : S.LaidOut name start ids arcs) {v : Value} (hv : v ≠ .null) :
    (ensureState v S).answer = .ok () ∧
      (ensureState v S).state.LaidOut name start (ids ++ [v]) arcs := by
  have hdone : (System.ensureState v S).answer = .ok () ∧
      (System.ensureState v S).state = if S.Has v then S else S.addState v := by
    unfold System.ensureState
    rw [bind_of_ok (state_apply S)]
    by_cases hhas : S.Has v
    · rw [if_pos hhas, if_pos hhas]
      exact ⟨rfl, rfl⟩
    · have hcreate : createState v S = ⟨.ok v, S.addState v, []⟩ := by
        rw [createState_given hv, if_neg hhas]
      rw [if_neg hhas, if_neg hhas, bind_of_ok hcreate]
      exact ⟨rfl, rfl⟩
  refine ⟨hdone.1, ?_⟩
  rw [hdone.2]
  have hstates := distinctBy_concat Value.key ids v
  by_cases hhas : S.Has v
  · rw [if_pos (h.has_iff.1 hhas)] at hstates
    rw [if_pos hhas]
    exact { h with states := h.states.trans hstates.symm }
  · rw [if_neg (mt h.has_iff.2 hhas)] at hstates
    rw [if_neg hhas]
    refine { h with states := ?_ }
    rw [hstates, ← h.states]
    rfl

theorem addArc (h : S.LaidOut name start ids arcs) (a : Arc Value) :
    (S.addArc a).LaidOut name start ids (arcs ++ [a]) := by
  have harcs := distinctBy_concat (Arc.map Value.key) arcs a
  unfold System.addArc
  by_cases ha : a.map Value.key ∈ S.lts.arcs
  · rw [if_pos (h.mem_arcs_iff.1 ha)] at harcs
    rw [if_pos ha]
    exact { h with arcs := h.arcs.trans harcs.symm }
  · rw [if_neg (mt h.mem_arcs_iff.2 ha)] at harcs
    rw [if_neg ha]
    refine { h with arcs := ?_ }
    rw [harcs, ← h.arcs]

/-- One triple mentions its source and its target, and gives its arc. -/
theorem ensureArc (h : S.LaidOut name start ids arcs) {a : Arc Value} (ha : a.Named) :
    (ensureArc a.triple S).answer = .ok () ∧
      (ensureArc a.triple S).state.LaidOut name start (ids ++ [a.source, a.target]) (arcs ++ [a]) := by
  obtain ⟨hsource, h₁⟩ := h.ensureState ha.source
  obtain ⟨htarget, h₂⟩ := h₁.ensureState ha.target
  rw [List.append_assoc, List.singleton_append] at h₂
  have hmention : ∀ v ∈ [a.source, a.target],
      (System.ensureState a.target (System.ensureState a.source S).state).state.Has v := fun v hv =>
    h₂.has_iff.2 (List.mem_map_of_mem (List.mem_append_right ids hv))
  have hcheck := checkArc_ok_iff.2 ⟨hmention a.source (by simp), hmention a.target (by simp),
    a.label, ha.label, rfl, rfl⟩
  have hcreate : createArc a.source a.target (.text a.label)
      (System.ensureState a.target (System.ensureState a.source S).state).state =
        ⟨.ok a, (System.ensureState a.target (System.ensureState a.source S).state).state.addArc a,
          []⟩ := by
    simp only [createArc, hcheck]
  unfold System.ensureArc Arc.triple
  rw [answer_bind_of_ok hsource, answer_bind_of_ok htarget, state_bind_of_ok hsource,
    state_bind_of_ok htarget, bind_of_ok hcreate]
  exact ⟨rfl, h₂.addArc a⟩

theorem forM (h : S.LaidOut name start ids arcs) {more : List (Arc Value)}
    (hmore : ∀ a ∈ more, a.Named) :
    ((more.map Arc.triple).forM System.ensureArc S).answer = .ok () ∧
      ((more.map Arc.triple).forM System.ensureArc S).state.LaidOut name start
        (ids ++ more.flatMap fun a => [a.source, a.target]) (arcs ++ more) := by
  induction more generalizing S ids arcs with
  | nil =>
    rw [List.flatMap_nil, List.append_nil, List.append_nil]
    exact ⟨rfl, h⟩
  | cons a more ih =>
    obtain ⟨ha, hrest⟩ := List.forall_mem_cons.1 hmore
    obtain ⟨hanswer, hone⟩ := h.ensureArc ha
    obtain ⟨hanswers, hall⟩ := ih hone hrest
    have hcons : ((a :: more).map Arc.triple).forM System.ensureArc =
        (System.ensureArc a.triple >>= fun _ => (more.map Arc.triple).forM System.ensureArc) := rfl
    rw [hcons, answer_bind_of_ok hanswer, state_bind_of_ok hanswer]
    rw [List.append_assoc, List.append_assoc] at hall
    exact ⟨hanswers, hall⟩

end LaidOut

/-- Named arcs are not refused. -/
theorem exists_ofArcs (name : String) (hinitial : initial ≠ .null) (harcs : ∀ a ∈ arcs, a.Named) :
    ∃ S, ofArcs name (arcs.map Arc.triple) initial = .ok S ∧
      S.LaidOut name (some initial) (mentions initial arcs) arcs := by
  have hempty : ¬({ name } : System).Has initial := List.not_mem_nil
  have hcreate : createState initial { name } =
      ⟨.ok initial, ({ name } : System).addState initial, []⟩ := by
    rw [createState_given hinitial, if_neg hempty]
  have hfirst : (({ name } : System).addState initial).LaidOut name none [initial] [] :=
    ⟨rfl, rfl, rfl, rfl, rfl⟩
  obtain ⟨hanswer, hall⟩ := hfirst.forM harcs
  have hhas := hall.has_iff.2 (List.mem_map_of_mem (List.mem_append_left _ List.mem_cons_self))
  have hset : ∀ T : System, T.Has initial → setInitial initial T = ⟨.ok (), T.startAt initial, []⟩ := by
    intro T hT
    simp only [setInitial, require, if_pos hT]
  have hbuild : (build (arcs.map Arc.triple) initial { name }).answer = .ok () ∧
      (build (arcs.map Arc.triple) initial { name }).state.LaidOut name (some initial)
        (mentions initial arcs) arcs := by
    unfold build
    rw [bind_of_ok hcreate, answer_bind_of_ok hanswer, state_bind_of_ok hanswer, hset _ hhas]
    exact ⟨rfl, { hall with start := rfl }⟩
  refine ⟨_, ?_, hbuild.2⟩
  simp only [ofArcs, hbuild.1]

/-! ## What is refused -/

section Refused

variable {triples : List (Value × Value × Value)}

/-- No state is `null`, also where a new id has been created for it, so that the arc is refused. -/
theorem Named.of_ensureArc (hS : S.Named) {t : Value × Value × Value}
    (h : (ensureArc t S).answer = .ok ()) :
    (t.1 ≠ .null ∧ t.2.2 ≠ .null) ∧ ∃ l, l ≠ "" ∧ t.2.1 = .text l := by
  obtain ⟨_, _, h, _⟩ := bind_ok h
  obtain ⟨_, _, h, _⟩ := bind_ok h
  obtain ⟨a, hcreate, _, _⟩ := bind_ok h
  have hnamed := (hS.operations (ensureState_operates t.1 S)).operations
    (ensureState_operates t.2.2 (ensureState t.1 S).state)
  unfold System.createArc at hcreate
  split at hcreate
  · rename_i b hcheck
    obtain ⟨hsource, htarget, l, hl, hlabel, _⟩ := checkArc_ok_iff.1 hcheck
    exact ⟨⟨fun hnull => hnamed.states (hnull ▸ hsource),
      fun hnull => hnamed.states (hnull ▸ htarget)⟩, l, hl, hlabel⟩
  · cases hcreate

theorem Named.of_forM (hS : S.Named) (h : (triples.forM ensureArc S).answer = .ok ()) :
    ∀ t ∈ triples, (t.1 ≠ .null ∧ t.2.2 ≠ .null) ∧ ∃ l, l ≠ "" ∧ t.2.1 = .text l := by
  induction triples generalizing S with
  | nil => simp
  | cons t triples ih =>
    have hcons : (t :: triples).forM ensureArc =
        (ensureArc t >>= fun _ => triples.forM ensureArc) := rfl
    rw [hcons] at h
    obtain ⟨_, harc, hrest, _⟩ := bind_ok h
    exact List.forall_mem_cons.2
      ⟨hS.of_ensureArc harc, ih (hS.operations (ensureArc_operates t S)) hrest⟩

theorem admissible_of_ofArcs (h : ofArcs name triples initial = .ok S) :
    Admissible triples initial := by
  have hbuild : (build triples initial { name }).answer = .ok () := by
    unfold ofArcs at h
    dsimp only at h
    split at h
    · assumption
    · cases h
  obtain ⟨_, _, hrest, _⟩ := bind_ok hbuild
  obtain ⟨_, hforM, hset, _⟩ := bind_ok hrest
  have hnamed := (named_new name).createState initial
  have hlast := hnamed.operations (Leads.forM ensureArc_operates triples _)
  have hall := hnamed.of_forM hforM
  refine ⟨fun hnull => ?_, fun t ht => (hall t ht).1, fun t ht => (hall t ht).2⟩
  subst hnull
  unfold setInitial require at hset
  rw [if_neg hlast.states] at hset
  cases hset

end Refused

/-! ## What is listed -/

/-- What is listed of a system that is made of the given arcs. Arcs are compared by the keys of their
endpoints. -/
structure Lists (S : System) (name : String) (arcs : List (Arc Value)) (initial : Value) : Prop where
  name : S.name = name
  states : S.written.states = distinctBy Value.key (mentions initial arcs)
  arcs_nodup : (S.arcs.map (Arc.map Value.key)).Nodup
  mem_arcs : ∀ a, a ∈ S.arcs.map (Arc.map Value.key) ↔ a ∈ arcs.map (Arc.map Value.key)
  alphabet : S.alphabet = distinct (arcs.map Arc.label)
  initial : S.initial? = .ok initial

/-- Both systems have the same states, the same arcs and the same states that can be reached. -/
structure SameSets (S S' : System) : Prop where
  states : ∀ k, k ∈ S.written.states.map Value.key ↔ k ∈ S'.written.states.map Value.key
  arcs : ∀ a, a ∈ S.arcs.map (Arc.map Value.key) ↔ a ∈ S'.arcs.map (Arc.map Value.key)
  reachable : ∃ found found', S.reachable? = .ok found ∧ S'.reachable? = .ok found' ∧
    ∀ k, k ∈ found.map Value.key ↔ k ∈ found'.map Value.key

namespace LaidOut

variable {S' : System} {arcs' : List (Arc Value)}

theorem initial?_eq (h : S.LaidOut name (some initial) ids arcs) : S.initial? = .ok initial := by
  unfold System.initial?
  rw [h.start]

theorem books (h : S.LaidOut name start ids arcs) (hS : S.lts.Valid) :
    S.Books S.written.states arcs where
  valid := hS
  states_eq := rfl
  arcs_eq := by rw [lts_arcs, h.arcs, map_distinctBy]

theorem lists (h : S.LaidOut name (some initial) (mentions initial arcs) arcs)
    (hS : S.lts.Valid) : S.Lists name arcs initial where
  name := h.name
  states := h.states
  arcs_nodup := (h.books hS).accounts.arcs_nodup
  mem_arcs := (h.books hS).accounts.mem_arcs
  alphabet := (h.books hS).accounts.alphabet_eq
  initial := h.initial?_eq

theorem sameSets (h : S.LaidOut name (some initial) (mentions initial arcs) arcs)
    (h' : S'.LaidOut name (some initial) (mentions initial arcs') arcs') (hS : S.lts.Valid)
    (hS' : S'.lts.Valid)
    (harcs : ∀ a, a ∈ arcs'.map (Arc.map Value.key) ↔ a ∈ arcs.map (Arc.map Value.key)) :
    S.SameSets S' := by
  obtain ⟨found, hfound, hkeys, _⟩ := exists_reachable hS h.initial?_eq
  obtain ⟨found', hfound', hkeys', _⟩ := exists_reachable hS' h'.initial?_eq
  refine ⟨fun k => ?_, fun a => ?_, found, found', hfound, hfound', fun k => ?_⟩
  · rw [h.states, h'.states, map_distinctBy, map_distinctBy, mem_distinct, mem_distinct,
      mem_mentions_keys, mem_mentions_keys]
    simp only [harcs]
  · rw [(h.lists hS).mem_arcs, (h'.lists hS').mem_arcs, harcs]
  · rw [hkeys, hkeys', Lts.mem_reachable_iff hS (initial_mem hS h.initial?_eq),
      Lts.mem_reachable_iff hS' (initial_mem hS' h'.initial?_eq)]
    exact Lts.reach_congr fun a => by rw [h.mem_arcs_iff, h'.mem_arcs_iff, harcs]

end LaidOut

/-- A system is made of triples exactly if they name arcs. It lists what they mention, and triples with
the same members make a system with the same sets. -/
theorem ofArcs_exactly (name : String) (triples : List (Value × Value × Value)) (initial : Value) :
    ((∃ S, ofArcs name triples initial = .ok S) ↔ Admissible triples initial) ∧
      ∀ S, ofArcs name triples initial = .ok S →
        (∃ arcs : List (Arc Value), triples = arcs.map Arc.triple ∧ S.Lists name arcs initial) ∧
        ∀ triples', (∀ k, k ∈ triples'.map tripleKey ↔ k ∈ triples.map tripleKey) →
          ∃ S', ofArcs name triples' initial = .ok S' ∧ S.SameSets S' := by
  refine ⟨⟨fun ⟨S, hS⟩ => admissible_of_ofArcs hS, fun hadmissible => ?_⟩,
    fun S hS => ⟨?_, fun triples' hkeys => ?_⟩⟩
  · obtain ⟨arcs, rfl, hnamed⟩ := hadmissible.exists_arcs
    obtain ⟨S, hS, _⟩ := exists_ofArcs name hadmissible.initial hnamed
    exact ⟨S, hS⟩
  · have hadmissible := admissible_of_ofArcs hS
    obtain ⟨arcs, rfl, hnamed⟩ := hadmissible.exists_arcs
    obtain ⟨T, hT, hlaid⟩ := exists_ofArcs name hadmissible.initial hnamed
    obtain rfl : T = S := Except.ok.inj (hT.symm.trans hS)
    exact ⟨arcs, rfl, hlaid.lists (valid_ofArcs hS)⟩
  · have hadmissible := admissible_of_ofArcs hS
    obtain ⟨arcs', rfl, hnamed'⟩ := (hadmissible.of_keys hkeys).exists_arcs
    obtain ⟨arcs, rfl, hnamed⟩ := hadmissible.exists_arcs
    obtain ⟨T, hT, hlaid⟩ := exists_ofArcs name hadmissible.initial hnamed
    obtain rfl : T = S := Except.ok.inj (hT.symm.trans hS)
    obtain ⟨S', hS', hlaid'⟩ := exists_ofArcs name hadmissible.initial hnamed'
    exact ⟨S', hS', hlaid.sameSets hlaid' (valid_ofArcs hS) (valid_ofArcs hS')
      (mem_arcs_of_keys hkeys)⟩

/-- Triples that name a state as `1` and as `True`, one of them twice, in two orders. -/
theorem ofArcs_exactly_mixed :
    ∃ S S', ofArcs "" [(.integer 1, .text "b", .text "x"), (.text "x", .text "a", .truth true),
          (.truth true, .text "b", .text "x")] (.integer 1) = .ok S ∧
      ofArcs "" [(.text "x", .text "a", .integer 1), (.integer 1, .text "b", .text "x")]
        (.integer 1) = .ok S' ∧ S.SameSets S' := by
  have hadmissible : Admissible [(.integer 1, .text "b", .text "x"),
      (.text "x", .text "a", .truth true), (.truth true, .text "b", .text "x")] (.integer 1) :=
    ⟨by simp, by simp, by simp⟩
  obtain ⟨S, hS⟩ := (ofArcs_exactly "" _ (.integer 1)).1.2 hadmissible
  obtain ⟨S', hS', hsame⟩ := ((ofArcs_exactly "" _ (.integer 1)).2 S hS).2
    [(.text "x", .text "a", .integer 1), (.integer 1, .text "b", .text "x")] (by
      intro k
      simp [tripleKey, Value.key]
      tauto)
  exact ⟨S, S', hS, hS', hsame⟩

end System

end RegionCalculus
