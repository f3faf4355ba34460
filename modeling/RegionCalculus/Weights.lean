import RegionCalculus.Fault

/-!
# Weights

Every event takes tokens away and puts tokens down. The backward weight of an event is the number of
tokens that it takes, the forward weight the number that it puts.

* `Weights`: both lists, one entry per event.
* `Weights.net w`: forward less backward, event by event.
* `Weights.Sized n w`: there is one entry per event on either side.
* `Weights.addScaled w o k`: `w` with `k` times `o`; unless `k` is positive, the reverse of `o` is added.
* `Weights.accumulate n w o k`: the same for `n` events, added to `w` event by event.
* `Weights.ofNet v`: zero weights into which the net weights `v` are written.
* `Weights.purified w`: `w`, both sides overwritten by its net weights.
* `Weights.read? n bs fs`: the weights that two lists of values write, for `n` events.
-/

namespace RegionCalculus
set_option autoImplicit false

/-- The backward and the forward weights, one entry per event. -/
@[ext] structure Weights where
  backward : List Int
  forward : List Int
deriving DecidableEq

structure Weights.Sized (n : Nat) (w : Weights) : Prop where
  backward : w.backward.length = n
  forward : w.forward.length = n

/-! ## Reading integers -/

/-- The integer that a value is; truth values and floating numbers are none. -/
def Value.integer? (what : Quantity) : Value → Except Fault Int
  | .integer n => .ok n
  | v => .error (.notInteger what v)

/-- One weight per event: every entry is an integer, and there are as many as events. -/
def readWeights (side : Side) (events : Nat) (given : List Value) : Except Fault (List Int) := do
  let weights ← given.mapM (Value.integer? (.weight side))
  if weights.length = events then return weights
  else throw (.weightCount side weights.length events)

/-- Refuses the first negative entry, the entries standing from index `i` on. -/
def checkSigns (side : Side) (i : Nat) : List Int → Except Fault Unit
  | [] => .ok ()
  | w :: rest => if w < 0 then .error (.negativeWeight side w i) else checkSigns side (i + 1) rest

namespace Weights

/-- The weights that two lists of values write; their signs are free. -/
def read? (events : Nat) (backward forward : List Value) : Except Fault Weights := do
  let b ← readWeights .backward events backward
  let f ← readWeights .forward events forward
  return ⟨b, f⟩

/-- Refuses negative weights, the backward ones first. -/
def checkSigns (w : Weights) : Except Fault Unit := do
  RegionCalculus.checkSigns .backward 0 w.backward
  RegionCalculus.checkSigns .forward 0 w.forward

/-! ## Arithmetic -/

/-- No event takes or puts anything. -/
def zero (events : Nat) : Weights := ⟨List.replicate events 0, List.replicate events 0⟩

def net (w : Weights) : List Int := List.zipWith (· - ·) w.forward w.backward

def reverse (w : Weights) : Weights := ⟨w.forward, w.backward⟩

/-- Adds `k` times `o` to `w`, for a factor `k` that is not negative. -/
def addMultiple (w o : Weights) (k : Int) : Weights :=
  ⟨List.zipWith (fun x y => x + k * y) w.backward o.backward,
   List.zipWith (fun x y => x + k * y) w.forward o.forward⟩

/-- Adds `k` times `o` to `w`; a factor that is not positive adds the reverse of `o`. -/
def addScaled (w o : Weights) (k : Int) : Weights :=
  if 0 < k then w.addMultiple o k else w.addMultiple o.reverse (-k)

/-! ## Weights that change in their place -/

/-- The event at index `i` takes `b` and puts `f` more. -/
def raise (w : Weights) (i : Nat) (b f : Int) : Weights :=
  ⟨w.backward.modify i (· + b), w.forward.modify i (· + f)⟩

/-- The event at index `i` takes and puts `k` more. -/
def addLoop (w : Weights) (i : Nat) (k : Int) : Weights := w.raise i k k

/-- Adds `k` times the entries of `o` for one event after the other. -/
def accumulateFrom (o : Weights) (k : Int) (events : Nat) (w : Weights) : Weights :=
  (List.range events).foldl
    (fun w i => w.raise i (k * o.backward.getD i 0) (k * o.forward.getD i 0)) w

/-- Adds `k` times `o`. The factor zero changes nothing; for a negative one the sides of `o` change
places. -/
def accumulate (events : Nat) (w o : Weights) (k : Int) : Weights :=
  if k = 0 then w
  else if k < 0 then accumulateFrom o.reverse (-k) events w
  else accumulateFrom o k events w

/-- Writes the net weight `x` of the event at index `i` on its side and leaves the other one. -/
def writeNet (w : Weights) (i : Nat) (x : Int) : Weights :=
  if 0 < x then { w with forward := w.forward.set i x }
  else { w with backward := w.backward.set i (-x) }

/-- The weights with a given net effect that never both take and put. -/
def ofNet (v : List Int) : Weights :=
  v.zipIdx.foldl (fun w e => w.writeNet e.2 e.1) (zero v.length)

/-- Overwrites both weights of the event at index `i` by its net weight `x`. -/
def overwriteNet (w : Weights) (i : Nat) (x : Int) : Weights :=
  if 0 ≤ x then ⟨w.backward.set i 0, w.forward.set i x⟩
  else ⟨w.backward.set i (-x), w.forward.set i 0⟩

/-- The same net effect without an event that both takes and puts. -/
def purified (w : Weights) : Weights :=
  w.net.zipIdx.foldl (fun w e => w.overwriteNet e.2 e.1) w

/-- No event both takes and puts. -/
def isPure (w : Weights) : Bool := (List.zipWith min w.backward w.forward).all (· = 0)

@[simp] theorem reverse_reverse (w : Weights) : w.reverse.reverse = w := rfl

@[simp] theorem length_net (w : Weights) :
    w.net.length = min w.forward.length w.backward.length := by
  simp [net]

theorem sized_zero (n : Nat) : (zero n).Sized n := ⟨List.length_replicate, List.length_replicate⟩

theorem Sized.reverse {n : Nat} {w : Weights} (h : w.Sized n) : w.reverse.Sized n :=
  ⟨h.forward, h.backward⟩

theorem Sized.length_net {n : Nat} {w : Weights} (h : w.Sized n) : w.net.length = n := by
  rw [Weights.length_net, h.forward, h.backward, Nat.min_self]

end Weights

end RegionCalculus
