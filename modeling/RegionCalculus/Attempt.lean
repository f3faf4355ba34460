import RegionCalculus.Fault

/-!
# Attempts

A computation that may fail, keeps what it has changed until then, and leaves notes of what it did.

* `Note`: what is noted, and `Note.message` its wording.
* `Outcome σ α`: an answer or a fault, the state afterwards, and the notes in order.
* `Attempt σ α`: a function from states to outcomes. A failing attempt keeps its state: `bind`
  hands on what the first part has changed also if it fails.
* `Attempt.within`: an attempt on a part of a larger state.
-/

namespace RegionCalculus
set_option autoImplicit false

/-! ## Notes -/

/-- What an attempt notes on its way. -/
inductive Note where
  | treeBuilt (covered states : Nat)
  | basisFound (cycles : Nat)
  | vectorsComputed (states : Nat)
  | cyclesComputed (cycles : Nat)
  | markingDerived (marking : Int)
  | inconsistentWeights
deriving DecidableEq

def Note.message : Note → String
  | treeBuilt covered states => s!"Spanning tree covers {covered} of {states} states"
  | basisFound cycles => s!"Cycle basis has {cycles} cycles"
  | vectorsComputed states => s!"Computed Parikh vectors for {states} states"
  | cyclesComputed cycles => s!"Computed {cycles} fundamental cycle vectors"
  | markingDerived marking => s!"Derived normal initial marking {marking}"
  | inconsistentWeights => "Normal marking requested for weights that are not cycle-consistent"

/-! ## Outcomes -/

/-- What an attempt comes to: its answer or its fault, the state it leaves, and its notes. -/
structure Outcome (σ α : Type) where
  answer : Except Fault α
  state : σ
  notes : List Note

/-- A computation on a state that may fail and leaves notes. -/
def Attempt (σ α : Type) : Type := σ → Outcome σ α

namespace Attempt

variable {σ τ α β : Type}

/-- Answers `a` and changes nothing. -/
def succeed (a : α) : Attempt σ α := fun s => ⟨.ok a, s, []⟩

def fail (f : Fault) : Attempt σ α := fun s => ⟨.error f, s, []⟩

/-- Runs `x`, and on an answer `k` in the state that `x` left. -/
def andThen (x : Attempt σ α) (k : α → Attempt σ β) : Attempt σ β := fun s =>
  match x s with
  | ⟨.ok a, s', notes⟩ =>
    let o := k a s'
    ⟨o.answer, o.state, notes ++ o.notes⟩
  | ⟨.error f, s', notes⟩ => ⟨.error f, s', notes⟩

instance : Monad (Attempt σ) where
  pure := succeed
  bind := andThen

def state : Attempt σ σ := fun s => ⟨.ok s, s, []⟩

def update (f : σ → σ) : Attempt σ Unit := fun s => ⟨.ok (), f s, []⟩

def note (n : Note) : Attempt σ Unit := fun s => ⟨.ok (), s, [n]⟩

/-- Answers what a check has found, or fails with its fault. -/
def ofExcept (e : Except Fault α) : Attempt σ α := fun s => ⟨e, s, []⟩

def provided (condition : Bool) (x : Attempt σ Unit) : Attempt σ Unit :=
  if condition then x else pure ()

/-- Runs an attempt on the part of the state that `get` reads and `set` replaces. -/
def within (get : σ → τ) (set : τ → σ → σ) (x : Attempt τ α) : Attempt σ α := fun s =>
  let o := x (get s)
  ⟨o.answer, set o.state s, o.notes⟩

/-! ## One equation per operation -/

@[simp] theorem pure_apply (a : α) (s : σ) : (pure a : Attempt σ α) s = ⟨.ok a, s, []⟩ := rfl

theorem bind_apply (x : Attempt σ α) (k : α → Attempt σ β) (s : σ) :
    (x >>= k) s = x.andThen k s := rfl

theorem bind_of_ok {x : Attempt σ α} {k : α → Attempt σ β} {s s' : σ} {a : α} {notes : List Note}
    (h : x s = ⟨.ok a, s', notes⟩) :
    (x >>= k) s = ⟨(k a s').answer, (k a s').state, notes ++ (k a s').notes⟩ := by
  simp only [bind_apply, andThen, h]

theorem bind_of_error {x : Attempt σ α} {k : α → Attempt σ β} {s s' : σ} {f : Fault}
    {notes : List Note} (h : x s = ⟨.error f, s', notes⟩) :
    (x >>= k) s = ⟨.error f, s', notes⟩ := by
  simp only [bind_apply, andThen, h]

@[simp] theorem fail_apply (f : Fault) (s : σ) : (fail f : Attempt σ α) s = ⟨.error f, s, []⟩ := rfl

@[simp] theorem state_apply (s : σ) : (state : Attempt σ σ) s = ⟨.ok s, s, []⟩ := rfl

@[simp] theorem update_apply (f : σ → σ) (s : σ) : update f s = ⟨.ok (), f s, []⟩ := rfl

@[simp] theorem note_apply (n : Note) (s : σ) : note n s = ⟨.ok (), s, [n]⟩ := rfl

@[simp] theorem provided_true (x : Attempt σ Unit) : provided true x = x := rfl

@[simp] theorem provided_false (x : Attempt σ Unit) : provided false x = pure () := rfl

@[simp] theorem ofExcept_apply (e : Except Fault α) (s : σ) : ofExcept e s = ⟨e, s, []⟩ := rfl

end Attempt

end RegionCalculus
