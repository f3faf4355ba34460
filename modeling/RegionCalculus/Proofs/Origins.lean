import RegionCalculus.Proofs.CachedTrees

/-!
# Where systems and trees come from

Every system of a session comes from an empty one by operations, and every tree is a single state or
was the spanning tree of such a system. All other commands leave the systems and the trees as they are.

* `System.Operation S S'`: one state, arc or initial state was asked for, perhaps in vain.
* `System.Made S`: operations make `S` of an empty system; `Made.named`: then no state is `null`, and
  no label is empty.
* `WrittenTree.Planted t`: the tree has grown from its root, and is written with its states.
* `Attempt.Keeps f x`: an attempt that leaves what `f` sees of the state as it is.
* `Session.perform_keeps`: the commands that leave the systems and the trees as they are.
* `Session.Grounded s`: all systems are made and all trees are planted. It holds of every session
  (`Session.Reached.grounded`).
-/

namespace RegionCalculus
set_option autoImplicit false

open Attempt

/-! ## Systems -/

@[simp] theorem Value.key_eq_null_iff {v : Value} : v.key = .null ↔ v = .null := by
  cases v with
  | null => simp
  | floating x => cases x <;> simp [key, floatingKey]
  | list items => cases items <;> simp [key, chain]
  | tuple items => cases items <;> simp [key, chain]
  | _ => simp [key]

namespace System

inductive Operation : System → System → Prop
  | createState (v : Value) (S : System) : Operation S (createState v S).state
  | createArc (source target label : Value) (S : System) :
      Operation S (createArc source target label S).state
  | setInitial (v : Value) (S : System) : Operation S (setInitial v S).state

def Made (S : System) : Prop := ∃ name, Relation.ReflTransGen Operation { name } S

variable {S S' : System}

theorem Operation.grows (h : Operation S S') : S.Grows S' := by
  cases h with
  | createState v => exact S.createState_leads v
  | createArc source target label => exact S.createArc_leads source target label
  | setInitial v => exact S.setInitial_leads v

theorem made_new (name : String) : Made { name } := ⟨name, .refl⟩

theorem Made.operations (hS : S.Made) (h : Relation.ReflTransGen Operation S S') : S'.Made := by
  obtain ⟨name, hname⟩ := hS
  exact ⟨name, hname.trans h⟩

theorem Made.valid (hS : S.Made) : S.lts.Valid := by
  obtain ⟨name, h⟩ := hS
  induction h with
  | refl => exact Lts.valid_empty
  | tail _ hstep ih => exact hstep.grows.valid ih

/-! ## What operations make -/

theorem createStates_operates (vs : List Value) (S : System) :
    (createStates vs).Leads Operation S :=
  .mapM (fun v S => .single (.createState v S)) vs S

theorem ensureState_operates (v : Value) (S : System) : (ensureState v).Leads Operation S := by
  refine Leads.state.bind fun S' _ => ?_
  by_cases hv : S'.Has v
  · rw [if_pos hv]
    exact .pure ()
  · rw [if_neg hv]
    have hcreate : (createState v).Leads Operation (Attempt.state S).state :=
      .single (.createState v _)
    exact hcreate.bind fun _ _ => .pure ()

theorem ensureArc_operates (triple : Value × Value × Value) (S : System) :
    (ensureArc triple).Leads Operation S := by
  refine (ensureState_operates _ S).bind fun _ _ => (ensureState_operates _ _).bind fun _ _ => ?_
  have hcreate : ∀ S', (createArc triple.1 triple.2.2 triple.2.1).Leads Operation S' := fun S' =>
    .single (.createArc _ _ _ S')
  exact (hcreate _).bind fun _ _ => .pure ()

theorem build_operates (triples : List (Value × Value × Value)) (initial : Value) (S : System) :
    (build triples initial).Leads Operation S := by
  have hcreate : (createState initial).Leads Operation S := .single (.createState initial S)
  exact hcreate.bind fun _ _ =>
    (Leads.forM ensureArc_operates triples _).bind fun _ _ => .single (.setInitial initial _)

theorem made_ofArcs {name : String} {triples : List (Value × Value × Value)} {initial : Value}
    (h : ofArcs name triples initial = .ok S) : S.Made := by
  have hmade : (build triples initial { name }).state.Made :=
    (made_new name).operations (build_operates triples initial { name })
  unfold ofArcs at h
  dsimp only at h
  split at h
  · rw [← Except.ok.inj h]
    exact hmade
  · cases h

/-! ## Names of states and labels -/

/-- No state is `null`, and every arc has a label. -/
structure Named (S : System) : Prop where
  states : ¬S.Has .null
  labels : ∀ a ∈ S.written.arcs, a.label ≠ ""

theorem named_new (name : String) : Named { name } where
  states := List.not_mem_nil
  labels := fun _ ha => absurd ha List.not_mem_nil

theorem has_addState {v w : Value} : (S.addState v).Has w ↔ S.Has w ∨ w.key = v.key := by
  rw [Has, lts_addState, List.mem_append, List.mem_singleton]
  rfl

theorem Named.createState (hS : S.Named) (v : Value) : (createState v S).state.Named := by
  by_cases hnull : v = .null
  · subst hnull
    rw [createState_null]
    refine ⟨fun hhas => ?_, hS.labels⟩
    have hkey := (has_addState.1 hhas).resolve_left hS.states
    simp [numbered] at hkey
  · rw [createState_given hnull]
    split
    · exact hS
    · refine ⟨fun hhas => ?_, hS.labels⟩
      have hkey := (has_addState.1 hhas).resolve_left hS.states
      exact hnull (Value.key_eq_null_iff.1 (hkey.symm.trans Value.key_null))

theorem Named.createArc (hS : S.Named) (source target label : Value) :
    (createArc source target label S).state.Named := by
  cases h : S.checkArc source target label with
  | error f =>
    simp only [System.createArc, h]
    exact hS
  | ok a =>
    obtain ⟨_, _, hlabel⟩ := checkArc_ok h
    simp only [System.createArc, h, addArc]
    split
    · exact hS
    · refine ⟨hS.states, fun b hb => ?_⟩
      rcases List.mem_append.1 hb with hb | hb
      · exact hS.labels b hb
      · rw [List.mem_singleton.1 hb]
        exact hlabel

theorem Named.setInitial (hS : S.Named) (v : Value) : (setInitial v S).state.Named := by
  unfold System.setInitial
  split
  · exact ⟨hS.states, hS.labels⟩
  · exact hS

theorem Operation.named (h : Operation S S') (hS : S.Named) : S'.Named := by
  cases h with
  | createState v => exact hS.createState v
  | createArc source target label => exact hS.createArc source target label
  | setInitial v => exact hS.setInitial v

theorem Named.operations (hS : S.Named) (h : Relation.ReflTransGen Operation S S') : S'.Named := by
  induction h with
  | refl => exact hS
  | tail _ hstep ih => exact hstep.named ih

theorem Made.named (hS : S.Made) : S.Named := by
  obtain ⟨name, h⟩ := hS
  exact (named_new name).operations h

end System

/-! ## Trees -/

/-- The tree has grown from its root, and is written with its states. -/
structure WrittenTree.Planted (t : WrittenTree) : Prop where
  grown : t.tree.Grown
  forms : t.forms.map Value.key = t.tree.states

theorem WrittenTree.planted_single (root : Value) : (WrittenTree.single root).Planted where
  grown := .single root.key
  forms := rfl

theorem WrittenTree.Inside.planted {t : WrittenTree} {S : System} (h : t.Inside S) : t.Planted :=
  ⟨h.grown, h.forms⟩

/-! ## What attempts leave as it is -/

namespace Attempt

variable {σ α β γ : Type} {f : σ → γ}

/-- The attempt leaves what `f` sees of the state as it is, also if it fails. -/
def Keeps (f : σ → γ) (x : Attempt σ α) : Prop := ∀ s, f (x s).state = f s

namespace Keeps

theorem of_state_eq {x : Attempt σ α} (h : ∀ s, (x s).state = s) : Keeps f x := fun s =>
  congrArg f (h s)

theorem pure (a : α) : Keeps f (Pure.pure a : Attempt σ α) := of_state_eq fun _ => rfl

theorem fail (g : Fault) : Keeps f (Attempt.fail g : Attempt σ α) := of_state_eq fun _ => rfl

theorem note (n : Note) : Keeps f (Attempt.note n : Attempt σ Unit) := of_state_eq fun _ => rfl

theorem ofExcept (e : Except Fault α) : Keeps f (Attempt.ofExcept e : Attempt σ α) :=
  of_state_eq fun _ => rfl

theorem bind {x : Attempt σ α} {k : α → Attempt σ β} (hx : Keeps f x) (hk : ∀ a, Keeps f (k a)) :
    Keeps f (x >>= k) := by
  intro s
  cases h : (x s).answer with
  | error g =>
    rw [state_bind_of_error h]
    exact hx s
  | ok a =>
    rw [state_bind_of_ok h, hk a]
    exact hx s

theorem mapM {g : α → Attempt σ β} (h : ∀ a, Keeps f (g a)) (l : List α) : Keeps f (l.mapM g) := by
  induction l with
  | nil => exact pure []
  | cons a l ih =>
    rw [List.mapM_cons]
    exact (h a).bind fun _ => ih.bind fun _ => pure _

end Keeps

end Attempt

/-! ## The ground of a session -/

/-- A command that makes a system or a tree, or goes to a system. -/
def Command.founds : Command → Bool
  | .newSystem _ _ | .systemOfArcs _ _ _ _ | .toSystem _ _ | .buildTree _ _ | .newTree _ _ => true
  | _ => false

namespace Session

variable {s s' : Session}

/-- The systems and the trees of a session. -/
def ground (s : Session) : List System × List WrittenTree := (s.systems, s.trees)

section Parts

variable {α : Type}

theorem keeps_lookup (pick : Session → Ref → Option α) (name : SlotName) :
    Keeps ground (lookup pick name) := .of_state_eq fun _ => lookup_state

theorem keeps_keep (slot : Keep) (r : Ref) : Keeps ground (keep slot r) := fun s => by
  cases slot <;> rfl

theorem keeps_onUtility (p : PlacedUtility) (x : Attempt RegionUtility α) :
    Keeps ground (onUtility p x) := fun _ => rfl

theorem keeps_onRegion (p : PlacedRegion) (x : Attempt Holding α) : Keeps ground (onRegion p x) :=
  fun _ => rfl

theorem keeps_operand (o : Operand) : Keeps ground (operand o) := .of_state_eq (operand_state o)

theorem keeps_produce (R : Region) (slot : Keep) : Keeps ground (produce R slot) := fun s => by
  cases slot <;> rfl

theorem keeps_rebuild (b : BuilderId) (B : Builder) (slot : Keep) :
    Keeps ground (rebuild b B slot) := fun s => by
  cases slot <;> rfl

theorem keeps_produceBuilder (B : Builder) (slot : Keep) : Keeps ground (produceBuilder B slot) :=
  fun s => by cases slot <;> rfl

end Parts

theorem keeps_tellUtility (p : PlacedUtility) (c : UtilityCommand) :
    Keeps ground (tellUtility p c) := by
  cases c with
  | system slot => exact (keeps_keep slot _).bind fun _ => .pure _
  | tree slot =>
    exact (keeps_onUtility p _).bind fun _ => (keeps_keep slot _).bind fun _ => .pure _
  | size | events | «show» => exact .pure _
  | eventIndex event => exact (Keeps.ofExcept _).bind fun _ => .pure _
  | lookupVector id =>
    refine (keeps_onUtility p _).bind fun found => ?_
    cases found <;> exact .pure _
  | reachable | unreachable | reachingVector _ | parikhMatrix | cycleMatrix | cycleVectors =>
    exact (keeps_onUtility p _).bind fun _ => .pure _

theorem keeps_addOperand (p : PlacedRegion) (other : Operand) (factor : Value) (slot : Keep) :
    Keeps ground (addOperand p other factor slot) := by
  refine (keeps_operand other).bind fun e => ?_
  cases e with
  | region q =>
    refine (Keeps.ofExcept _).bind fun sum => ?_
    cases sum with
    | none => exact (keeps_keep slot _).bind fun _ => .pure _
    | some R => exact keeps_produce R slot
  | _ => exact .fail _

theorem keeps_tellRegion (watched : Bool) (p : PlacedRegion) (c : RegionCommand) :
    Keeps ground (tellRegion watched p c) := by
  cases c with
  | utility slot | system slot => exact (keeps_keep slot _).bind fun _ => .pure _
  | backward | forward | net | isPure | «show» => exact .pure _
  | backwardOf _ | forwardOf _ | netOf _ | evaluate _ =>
    exact (Keeps.ofExcept _).bind fun _ => .pure _
  | isConsistent | initialMarking | normalMarking | markingOf _ | showEvents =>
    exact (keeps_onRegion p _).bind fun _ => .pure _
  | addScaled other factor slot => exact keeps_addOperand p other factor slot
  | purify slot => exact (keeps_onUtility p.owner _).bind fun R => keeps_produce R slot
  | withMarking marking slot => exact (Keeps.ofExcept _).bind fun R => keeps_produce R slot

theorem keeps_tellBuilder (watched : Bool) (p : PlacedBuilder) (c : BuilderCommand) :
    Keeps ground (tellBuilder watched p c) := by
  cases c with
  | weights | «show» => exact .pure _
  | addLoop event weight slot => exact (Keeps.ofExcept _).bind fun B => keeps_rebuild p.id B slot
  | addScaled other factor slot =>
    refine (keeps_operand other).bind fun e => ?_
    cases e with
    | region q => exact (Keeps.ofExcept _).bind fun B => keeps_rebuild p.id B slot
    | _ => exact .fail _
  | purify slot => exact keeps_rebuild p.id _ slot
  | finish marking slot => exact (Keeps.ofExcept _).bind fun R => keeps_produce R slot
  | finishNormal slot => exact (keeps_onUtility p.owner _).bind fun R => keeps_produce R slot

theorem keeps_tellTree (t : WrittenTree) (c : TreeCommand) : Keeps ground (tellTree t c) := by
  cases c with
  | root | states | arcs | size | «show» | has _ | graph => exact .pure _
  | parentArc id =>
    refine (Keeps.ofExcept _).bind fun a => ?_
    cases a <;> exact .pure _
  | depth _ | rootPath _ | treePath _ _ => exact (Keeps.ofExcept _).bind fun _ => .pure _
  | extraArcs system | fundamentalCycles system =>
    exact (keeps_lookup _ system).bind fun _ => (Keeps.ofExcept _).bind fun _ => .pure _

theorem buildTree_outcome (S : System) (s : Session) :
    (S.buildTree s).answer = S.spanningTree? ∧ (S.buildTree s).state = s := by
  unfold System.buildTree
  cases S.spanningTree? <;> exact ⟨rfl, rfl⟩

theorem keeps_findBasis (system : SlotName) (tree : Option SlotName) :
    Keeps ground (findBasis system tree) := by
  refine (keeps_lookup _ system).bind fun found => ?_
  have htree : Keeps ground (treeFor found.2 tree) := by
    cases tree with
    | none => exact .of_state_eq fun s => (buildTree_outcome found.2 s).2
    | some name => exact keeps_lookup _ name
  exact htree.bind fun _ => (Keeps.ofExcept _).bind fun _ => (Keeps.note _).bind fun _ => .pure _

theorem keeps_markingOfRegion (r : RegionId) : Keeps ground (markingOfRegion r) := by
  have hlook : Keeps ground (Attempt.state : Attempt Session Session) := .of_state_eq fun _ => rfl
  refine hlook.bind fun s => ?_
  cases s.region? r with
  | none => exact .pure _
  | some p => exact keeps_onRegion p _

theorem keeps_equal (left right : Operand) : Keeps ground (equal left right) := by
  refine (keeps_operand left).bind fun a => (keeps_operand right).bind fun b => ?_
  cases a with
  | value v => cases b <;> exact .pure _
  | object r => cases b <;> exact .pure _
  | region p =>
    cases b with
    | value w => exact .pure _
    | object r => exact .pure _
    | region q =>
      dsimp only
      unfold equalRegions
      split
      · exact .pure _
      · split
        · exact (keeps_markingOfRegion _).bind fun _ =>
            (keeps_markingOfRegion _).bind fun _ => .pure _
        · exact .pure _

theorem keeps_distinctRegions (items : List SlotName) : Keeps ground (distinctRegions items) := by
  have hidentity : ∀ name, Keeps ground (identity name) := fun name =>
    (keeps_lookup _ name).bind fun p => (keeps_onRegion p _).bind fun _ => .pure _
  exact (Keeps.mapM hidentity items).bind fun _ => .pure _

theorem perform_keeps {c : Command} (hc : c.founds = false) (watched : Bool) :
    Keeps ground (perform watched c) := by
  cases c with
  | newSystem | systemOfArcs | toSystem | buildTree | newTree => cases hc
  | cycleBasis system tree => exact keeps_findBasis system tree
  | toTree on command => exact (keeps_lookup _ on).bind fun t => keeps_tellTree t command
  | newUtility system events slot =>
    have hadd : ∀ U, Keeps ground (addUtility U) := fun _ _ => rfl
    exact (keeps_lookup _ system).bind fun _ => (Keeps.ofExcept _).bind fun _ =>
      (hadd _).bind fun _ => (keeps_keep slot _).bind fun _ => .pure _
  | toUtility on command => exact (keeps_lookup _ on).bind fun p => keeps_tellUtility p command
  | newRegion utility backward forward marking slot =>
    exact (keeps_lookup _ utility).bind fun _ => (Keeps.ofExcept _).bind fun R =>
      keeps_produce R slot
  | toRegion on command =>
    exact (keeps_lookup _ on).bind fun p => keeps_tellRegion watched p command
  | equal left right => exact (keeps_equal left right).bind fun _ => .pure _
  | same left right =>
    exact (keeps_lookup _ left).bind fun _ => (keeps_lookup _ right).bind fun _ => .pure _
  | distinct items => exact (keeps_distinctRegions items).bind fun _ => .pure _
  | newBuilder utility backward forward slot =>
    exact (keeps_lookup _ utility).bind fun _ => (Keeps.ofExcept _).bind fun B =>
      keeps_produceBuilder B slot
  | builderOfNet utility net slot =>
    exact (keeps_lookup _ utility).bind fun _ => (Keeps.ofExcept _).bind fun B =>
      keeps_produceBuilder B slot
  | builderOfRegion region slot =>
    exact (keeps_lookup _ region).bind fun _ => keeps_produceBuilder _ slot
  | toBuilder on command =>
    exact (keeps_lookup _ on).bind fun p => keeps_tellBuilder watched p command

/-! ## What a session stands on -/

/-- All systems are made by operations, and all trees are planted. -/
structure Grounded (s : Session) : Prop where
  systems : ∀ S ∈ s.systems, S.Made
  trees : ∀ t ∈ s.trees, t.Planted

theorem Grounded.of_ground (hs : s.Grounded) (h : ground s' = ground s) : s'.Grounded := by
  obtain ⟨hsystems, htrees⟩ := Prod.mk.inj h
  exact ⟨by rw [hsystems]; exact hs.systems, by rw [htrees]; exact hs.trees⟩

theorem Grounded.produceSystem (hs : s.Grounded) {S : System} (hS : S.Made) (slot : Keep) :
    (produceSystem S slot s).state.Grounded := by
  have hground : ground (Session.produceSystem S slot s).state = (s.systems ++ [S], s.trees) := by
    cases slot <;> rfl
  obtain ⟨hsystems, htrees⟩ := Prod.mk.inj hground
  refine ⟨fun T hT => ?_, by rw [htrees]; exact hs.trees⟩
  rw [hsystems] at hT
  rcases List.mem_append.1 hT with hT | hT
  · exact hs.systems T hT
  · rw [List.mem_singleton.1 hT]
    exact hS

theorem Grounded.produceTree (hs : s.Grounded) {t : WrittenTree} (ht : t.Planted) (slot : Keep) :
    (produceTree t slot s).state.Grounded := by
  have hground : ground (Session.produceTree t slot s).state = (s.systems, s.trees ++ [t]) := by
    cases slot <;> rfl
  obtain ⟨hsystems, htrees⟩ := Prod.mk.inj hground
  refine ⟨by rw [hsystems]; exact hs.systems, fun t' ht' => ?_⟩
  rw [htrees] at ht'
  rcases List.mem_append.1 ht' with ht' | ht'
  · exact hs.trees t' ht'
  · rw [List.mem_singleton.1 ht']
    exact ht

/-- A query to a system changes nothing, any other command replaces the system by one that comes
from it by operations. -/
theorem tellSystem_operates (i : SystemId) (S : System) (c : SystemCommand) (s : Session) :
    (tellSystem i S c s).state = s ∨ ∃ S', Relation.ReflTransGen System.Operation S S' ∧
      (tellSystem i S c s).state = s.setSystem i S' := by
  cases c with
  | createState id => exact .inr ⟨_, .single (.createState id S), state_bind_pure _ _ _⟩
  | createStates ids => exact .inr ⟨_, S.createStates_operates ids, state_bind_pure _ _ _⟩
  | createArc source target label | showArc source target label =>
    exact .inr ⟨_, .single (.createArc source target label S), state_bind_pure _ _ _⟩
  | setInitial id => exact .inr ⟨_, .single (.setInitial id S), state_bind_pure _ _ _⟩
  | initial | postset _ | preset _ | reachable => exact .inl (state_bind_pure _ _ _)
  | _ => exact .inl rfl

theorem Grounded.tellSystem (hs : s.Grounded) {i : SystemId} {S : System}
    (hS : s.systems[i]? = some S) (c : SystemCommand) : (tellSystem i S c s).state.Grounded := by
  rcases tellSystem_operates i S c s with hsame | ⟨S', hoperates, hset⟩
  · rw [hsame]
    exact hs
  · rw [hset]
    refine ⟨fun T hT => ?_, hs.trees⟩
    rcases List.mem_or_eq_of_mem_set hT with hT | rfl
    · exact hs.systems T hT
    · exact (hs.systems S (List.mem_of_getElem? hS)).operations hoperates

/-- After a first part that changes nothing, the rest decides. -/
theorem Grounded.bind {α β : Type} {x : Attempt Session α} {k : α → Attempt Session β}
    (hs : s.Grounded) (hx : (x s).state = s)
    (hk : ∀ a, (x s).answer = .ok a → (k a s).state.Grounded) : ((x >>= k) s).state.Grounded := by
  cases h : (x s).answer with
  | error f =>
    rw [state_bind_of_error h, hx]
    exact hs
  | ok a =>
    rw [state_bind_of_ok h, hx]
    exact hk a h

theorem Grounded.step (hs : s.Grounded) (watched : Bool) (c : Command) :
    (step watched c s).2.Grounded := by
  change (perform watched c s).state.Grounded
  cases c with
  | newSystem name slot => exact hs.produceSystem (System.made_new name) slot
  | systemOfArcs triples initial name slot =>
    exact hs.bind (x := ofExcept _) rfl fun S hS => hs.produceSystem (System.made_ofArcs hS) slot
  | toSystem on command =>
    exact hs.bind lookup_state fun found hfound => hs.tellSystem (systemAt_ok hfound).2 command
  | buildTree system slot =>
    refine hs.bind lookup_state fun found hfound => ?_
    have hS := hs.systems found.2 (List.mem_of_getElem? (systemAt_ok hfound).2)
    obtain ⟨hanswer, hstate⟩ := buildTree_outcome found.2 s
    refine hs.bind hstate fun t ht => hs.produceTree ?_ slot
    exact (System.inside_of_spanningTree? hS.valid (hanswer.symm.trans ht)).planted
  | newTree root slot => exact hs.produceTree (WrittenTree.planted_single root) slot
  | _ => exact hs.of_ground (perform_keeps rfl watched s)

theorem Reached.grounded (hs : s.Reached) : s.Grounded := by
  induction hs with
  | empty =>
    exact ⟨fun _ h => absurd h List.not_mem_nil, fun _ h => absurd h List.not_mem_nil⟩
  | step watched c _ ih => exact ih.step watched c

/-- Every tree that a slot holds has grown, be it an object of its own or the one that a utility
keeps. -/
theorem Reached.planted (hs : s.Reached) {name : SlotName} {t : WrittenTree}
    (ht : (treeAt name s).answer = .ok t) : t.Planted := by
  obtain ⟨r, _, hr⟩ := lookup_ok ht
  cases r with
  | tree i => exact hs.grounded.trees t (List.mem_of_getElem? hr)
  | treeOf u =>
    obtain ⟨U, hU, htree⟩ := Option.bind_eq_some_iff.1 hr
    have hsystem := List.getElem?_eq_getElem (hs.rooted U (List.mem_of_getElem? hU))
    have hplaced : s.utility? u = some ⟨u, U, _⟩ := utility?_eq_some_iff.2 ⟨rfl, hU, hsystem⟩
    exact (hs.embedded u _ hplaced t htree).planted
  | _ => cases hr

end Session

end RegionCalculus
