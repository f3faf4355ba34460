/-!
# First occurrences

* `distinct l`: the members of `l`, each once, in the order of their first occurrences.
* `withMember l x`: `l` with `x` at its end, unless `x` is a member already.
-/

namespace RegionCalculus
set_option autoImplicit false

variable {α β : Type} [DecidableEq α]

def distinct : List α → List α
  | [] => []
  | a :: rest => a :: (distinct rest).filter (· ≠ a)

def withMember (l : List α) (x : α) : List α := if x ∈ l then l else l ++ [x]

@[simp] theorem distinct_nil : distinct ([] : List α) = [] := rfl

theorem distinct_cons (a : α) (l : List α) :
    distinct (a :: l) = a :: (distinct l).filter (· ≠ a) := rfl

@[simp] theorem mem_distinct {x : α} {l : List α} : x ∈ distinct l ↔ x ∈ l := by
  induction l with
  | nil => simp
  | cons a l ih =>
    by_cases h : x = a
    · simp [distinct_cons, h]
    · simp [distinct_cons, h, ih]

theorem nodup_distinct (l : List α) : (distinct l).Nodup := by
  induction l with
  | nil => simp
  | cons a l ih =>
    rw [distinct_cons, List.nodup_cons]
    exact ⟨by simp, ih.filter _⟩

/-- A further member changes the list only if it is new. -/
theorem distinct_concat (l : List α) (x : α) :
    distinct (l ++ [x]) = if x ∈ l then distinct l else distinct l ++ [x] := by
  induction l with
  | nil => simp [distinct_cons]
  | cons a l ih =>
    rw [List.cons_append, distinct_cons, ih, distinct_cons]
    by_cases hx : x ∈ l
    · simp [hx]
    · by_cases ha : x = a
      · subst ha
        simp [hx]
      · simp [hx, ha]

theorem withMember_distinct (l : List α) (x : α) :
    withMember (distinct l) x = distinct (l ++ [x]) := by
  rw [distinct_concat, withMember]
  simp only [mem_distinct]

end RegionCalculus
