import Mathlib
import RegionCalculus.Attempt

/-!
# What attempts do to their state

An attempt changes its state in steps, also if it fails. `Leads R x s` says that running `x` in the
state `s` takes steps of `R` only; it is proved part by part, along `bind`.
-/

namespace RegionCalculus.Attempt
set_option autoImplicit false

variable {σ τ α β : Type}

/-! ## The laws of a monad -/

theorem pure_bind_apply (a : α) (k : α → Attempt σ β) (s : σ) : (pure a >>= k) s = k a s := by
  rw [bind_of_ok (pure_apply a s), List.nil_append]

theorem bind_pure_apply (x : Attempt σ α) (s : σ) : (x >>= pure) s = x s := by
  rcases hx : x s with ⟨_ | a, s', notes⟩
  · rw [bind_of_error hx]
  · rw [bind_of_ok hx, pure_apply, List.append_nil]

instance : LawfulMonad (Attempt σ) := LawfulMonad.mk' (Attempt σ)
  (fun x => funext fun s => bind_pure_apply x s)
  (fun a k => funext fun s => pure_bind_apply a k s)
  (fun x k l => by
    funext s
    rcases hx : x s with ⟨_ | a, s', notes⟩
    · rw [bind_of_error (bind_of_error hx), bind_of_error hx]
    · rcases hk : k a s' with ⟨f | b, s'', notes'⟩
      · have hxk : (x >>= k) s = ⟨.error f, s'', notes ++ notes'⟩ := by rw [bind_of_ok hx, hk]
        rw [bind_of_error hxk, bind_of_ok hx, bind_of_error hk]
      · have hxk : (x >>= k) s = ⟨.ok b, s'', notes ++ notes'⟩ := by rw [bind_of_ok hx, hk]
        rw [bind_of_ok hxk, bind_of_ok hx, bind_of_ok hk, List.append_assoc])

/-! ## The state and the answer of a bind -/

theorem answer_bind_of_ok {x : Attempt σ α} {k : α → Attempt σ β} {s : σ} {a : α}
    (h : (x s).answer = .ok a) : ((x >>= k) s).answer = (k a (x s).state).answer := by
  rcases hx : x s with ⟨_ | b, s', notes⟩
  · simp [hx] at h
  · obtain rfl : b = a := by simpa [hx] using h
    rw [bind_of_ok hx]

theorem state_bind_of_ok {x : Attempt σ α} {k : α → Attempt σ β} {s : σ} {a : α}
    (h : (x s).answer = .ok a) : ((x >>= k) s).state = (k a (x s).state).state := by
  rcases hx : x s with ⟨_ | b, s', notes⟩
  · simp [hx] at h
  · obtain rfl : b = a := by simpa [hx] using h
    rw [bind_of_ok hx]

theorem answer_bind_of_error {x : Attempt σ α} {k : α → Attempt σ β} {s : σ} {f : Fault}
    (h : (x s).answer = .error f) : ((x >>= k) s).answer = .error f := by
  rcases hx : x s with ⟨g | b, s', notes⟩
  · rw [bind_of_error hx]
    simpa [hx] using h
  · simp [hx] at h

theorem state_bind_of_error {x : Attempt σ α} {k : α → Attempt σ β} {s : σ} {f : Fault}
    (h : (x s).answer = .error f) : ((x >>= k) s).state = (x s).state := by
  rcases hx : x s with ⟨g | b, s', notes⟩
  · rw [bind_of_error hx]
  · simp [hx] at h

theorem ofExcept_bind (e : Except Fault α) (f : α → Except Fault β) :
    (ofExcept (e >>= f) : Attempt σ β) = ofExcept e >>= fun a => ofExcept (f a) := by
  cases e <;> rfl

theorem state_bind_pure (x : Attempt σ α) (f : α → β) (s : σ) :
    ((x >>= fun a => pure (f a)) s).state = (x s).state := by
  cases h : (x s).answer with
  | error e => rw [state_bind_of_error h]
  | ok a => rw [state_bind_of_ok h, pure_apply]

theorem answer_bind_pure (x : Attempt σ α) (f : α → β) (s : σ) :
    ((x >>= fun a => pure (f a)) s).answer = (x s).answer.map f := by
  cases h : (x s).answer with
  | error e =>
    rw [answer_bind_of_error h]
    rfl
  | ok a =>
    rw [answer_bind_of_ok h, pure_apply]
    rfl

/-- A bind that answers: the first part answers, and the rest answers in the state it left. -/
theorem bind_ok {x : Attempt σ α} {k : α → Attempt σ β} {s : σ} {b : β}
    (h : ((x >>= k) s).answer = .ok b) :
    ∃ a, (x s).answer = .ok a ∧ (k a (x s).state).answer = .ok b ∧
      ((x >>= k) s).state = (k a (x s).state).state := by
  cases hx : (x s).answer with
  | error f =>
    rw [answer_bind_of_error hx] at h
    cases h
  | ok a =>
    rw [answer_bind_of_ok hx] at h
    exact ⟨a, rfl, h, state_bind_of_ok hx⟩

/-! ## Steps -/

def Leads (R : σ → σ → Prop) (x : Attempt σ α) (s : σ) : Prop :=
  Relation.ReflTransGen R s (x s).state

namespace Leads

variable {R : σ → σ → Prop} {s : σ}

theorem of_state_eq {x : Attempt σ α} (h : (x s).state = s) : Leads R x s := by
  rw [Leads, h]

theorem pure (a : α) : Leads R (Pure.pure a : Attempt σ α) s := of_state_eq rfl

theorem fail (f : Fault) : Leads R (Attempt.fail f : Attempt σ α) s := of_state_eq rfl

theorem state : Leads R Attempt.state s := of_state_eq rfl

theorem note (n : Note) : Leads R (Attempt.note n) s := of_state_eq rfl

theorem ofExcept (e : Except Fault α) : Leads R (Attempt.ofExcept e) s := of_state_eq rfl

theorem update {f : σ → σ} (h : Relation.ReflTransGen R s (f s)) : Leads R (Attempt.update f) s := h

theorem bind {x : Attempt σ α} {k : α → Attempt σ β} (hx : Leads R x s)
    (hk : ∀ a, (x s).answer = .ok a → Leads R (k a) (x s).state) : Leads R (x >>= k) s := by
  unfold Leads
  cases h : (x s).answer with
  | error f =>
    rw [state_bind_of_error h]
    exact hx
  | ok a =>
    rw [state_bind_of_ok h]
    exact hx.trans (hk a h)

/-- A part that leaves the state as it is may be followed by anything that leads along `R`. -/
theorem bind_of_state_eq {x : Attempt σ α} {k : α → Attempt σ β} (hx : (x s).state = s)
    (hk : ∀ a, (x s).answer = .ok a → Leads R (k a) s) : Leads R (x >>= k) s := by
  refine (of_state_eq hx).bind fun a ha => ?_
  rw [hx]
  exact hk a ha

theorem provided {x : Attempt σ Unit} {condition : Bool} (h : Leads R x s) :
    Leads R (Attempt.provided condition x) s := by
  cases condition with
  | false => exact pure ()
  | true => exact h

theorem mapM {f : α → Attempt σ β} (h : ∀ a s, Leads R (f a) s) (l : List α) (s : σ) :
    Leads R (l.mapM f) s := by
  induction l generalizing s with
  | nil => exact pure []
  | cons a l ih =>
    rw [List.mapM_cons]
    exact (h a s).bind fun _ _ => (ih _).bind fun _ _ => pure _

theorem forM {f : α → Attempt σ PUnit} (h : ∀ a s, Leads R (f a) s) (l : List α) (s : σ) :
    Leads R (l.forM f) s := by
  induction l generalizing s with
  | nil => exact pure _
  | cons a l ih => exact (h a s).bind fun _ _ => ih _

/-- What every step leaves as it is, the attempt leaves as it is. -/
theorem eq_of_steps {f : σ → β} {x : Attempt σ α} (h : Leads (fun s s' => f s' = f s) x s) :
    f (x s).state = f s := by
  unfold Leads at h
  generalize (x s).state = s' at h
  induction h with
  | refl => rfl
  | tail _ hstep ih => exact hstep.trans ih

/-- An attempt on a part of the state leads along `R` if the steps on the part do. -/
theorem within {get : σ → τ} {set : τ → σ → σ} {x : Attempt τ α}
    (h : Relation.ReflTransGen R s (set (x (get s)).state s)) :
    Leads R (Attempt.within get set x) s := h

end Leads

end RegionCalculus.Attempt
