/-
# Programs that move the state along a relation

What a program may do to its state, whether it succeeds or stops, is a relation.
-/

import Loams.Control.Program

namespace Loams.Control.Program

variable {σ τ ε α β : Type} {R : σ → σ → Prop}

/-- However it ends, the program takes the state along the relation. -/
def Moves (R : σ → σ → Prop) (m : Program σ ε α) : Prop := ∀ s, R s (m.exec s).2

theorem moves_update {g : σ → σ} (h : ∀ s, R s (g s)) : Moves R (update g : Program σ ε Unit) := h

theorem moves_ite {c : Prop} [Decidable c] {m m' : Program σ ε α} (h : Moves R m)
    (h' : Moves R m') : Moves R (if c then m else m') := by
  split_ifs
  · exact h
  · exact h'

section Preorder

variable [IsPreorder σ R] {m : Program σ ε α} {f : α → Program σ ε β}

theorem moves_pure (a : α) : Moves R (pure a : Program σ ε α) := fun s => refl_of R s

theorem moves_fail (e : ε) : Moves R (fail e : Program σ ε α) := fun s => refl_of R s

theorem moves_read : Moves R (read : Program σ ε σ) := fun s => refl_of R s

theorem moves_check (x : Except ε α) : Moves R (liftM x : Program σ ε α) := fun s => refl_of R s

theorem moves_ofExcept (x : Except ε α) : Moves R (ofExcept x : Program σ ε α) :=
  fun s => refl_of R s

theorem Moves.bind (hm : Moves R m) (hf : ∀ a, Moves R (f a)) : Moves R (m >>= f) := by
  intro s
  rw [exec_bind]
  have hs := hm s
  rcases hr : m.exec s with ⟨_ | a, s'⟩
  · rwa [hr] at hs
  · rw [hr] at hs
    exact trans_of R hs (hf a s')

theorem Moves.read {f : σ → Program σ ε β} (h : ∀ s, Moves R (f s)) : Moves R (read >>= f) :=
  .bind moves_read h

theorem Moves.check {x : Except ε α} (h : ∀ a, Moves R (f a)) : Moves R (liftM x >>= f) :=
  .bind (moves_check x) h

/-- What follows a check may rely on it. -/
theorem moves_check_bind {x : Except ε α} (h : ∀ a, x = .ok a → Moves R (f a)) :
    Moves R ((liftM x : Program σ ε α) >>= f) := by
  cases x with
  | error e => exact fun s => refl_of R s
  | ok a => exact h a rfl

theorem moves_forM {l : List α} {g : α → Program σ ε PUnit} (h : ∀ a ∈ l, Moves R (g a)) :
    Moves R (l.forM g) := by
  induction l with
  | nil => exact moves_pure _
  | cons a l ih =>
    rw [List.forM_eq_forM, List.forM_cons]
    exact Moves.bind (h a (by simp)) fun _ => ih fun b hb => h b (by simp [hb])

end Preorder

end Loams.Control.Program
