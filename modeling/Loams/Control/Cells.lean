/-
# Runs over independent cells

Each input of a stream is for one cell of a family and moves the state of that cell.
-/

import Mathlib.Data.List.Perm.Basic

namespace Loams.Control

open List

variable {κ σ α β : Type} [DecidableEq κ] (key : α → κ) (step : σ → α → σ × Option β)

/-- The inputs of one cell. -/
def runCell : σ → List α → σ × List β
  | s, [] => (s, [])
  | s, a :: l =>
    let moved := step s a
    let rest := runCell moved.1 l
    (rest.1, moved.2.toList ++ rest.2)

/-- The inputs of all cells, in the order of the stream. -/
def runAll : (κ → σ) → List α → (κ → σ) × List β
  | f, [] => (f, [])
  | f, a :: l =>
    let moved := step (f (key a)) a
    let rest := runAll (Function.update f (key a) moved.1) l
    (rest.1, moved.2.toList ++ rest.2)

/-- The inputs that go to a cell. -/
def inputsOf (k : κ) (l : List α) : List α := l.filter (key · = k)

variable {key step} {f : κ → σ} {s : σ} {k : κ} {a : α} {l l' : List α}

theorem runCell_append : runCell step s (l ++ l') =
    ((runCell step (runCell step s l).1 l').1,
      (runCell step s l).2 ++ (runCell step (runCell step s l).1 l').2) := by
  induction l generalizing s with
  | nil => rfl
  | cons a l ih => simp only [cons_append, runCell, ih, append_assoc]

theorem inputsOf_cons_same : inputsOf key (key a) (a :: l) = a :: inputsOf key (key a) l := by
  simp [inputsOf]

theorem inputsOf_cons_ne (h : key a ≠ k) : inputsOf key k (a :: l) = inputsOf key k l := by
  simp [inputsOf, h]

/-- A cell ends where its own inputs lead it. -/
theorem runAll_fst : (runAll key step f l).1 k = (runCell step (f k) (inputsOf key k l)).1 := by
  induction l generalizing f with
  | nil => rfl
  | cons a l ih =>
    rw [runAll, ih]
    by_cases hk : key a = k
    · subst hk
      rw [Function.update_self, inputsOf_cons_same, runCell]
    · rw [Function.update_of_ne (Ne.symm hk), inputsOf_cons_ne hk]

/-- The outputs of the run are those of the cells, one cell after the other. -/
theorem runAll_snd_perm {ks : List κ} (hnodup : ks.Nodup) (hks : ∀ a ∈ l, key a ∈ ks) :
    (runAll key step f l).2.Perm
      (ks.flatMap fun k => (runCell step (f k) (inputsOf key k l)).2) := by
  induction l generalizing f with
  | nil =>
    have hempty : (ks.flatMap fun k => (runCell step (f k) (inputsOf key k [])).2) = [] := by
      simp [inputsOf, runCell]
    rw [hempty]
    exact Perm.nil
  | cons a l ih =>
    have hrest := ih (f := Function.update f (key a) (step (f (key a)) a).1)
      fun a' ha' => hks a' (mem_cons_of_mem a ha')
    -- The cell of the first input stands somewhere among the cells.
    obtain ⟨front, back, rfl⟩ := append_of_mem (hks a mem_cons_self)
    obtain ⟨hfront, hback⟩ : key a ∉ front ∧ key a ∉ back := by
      have hmiddle := perm_middle.nodup_iff.mp hnodup
      rw [nodup_cons, mem_append, not_or] at hmiddle
      exact hmiddle.1
    have hothers : ∀ ks' : List κ, key a ∉ ks' →
        (ks'.flatMap fun k => (runCell step
          (Function.update f (key a) (step (f (key a)) a).1 k) (inputsOf key k l)).2) =
        ks'.flatMap fun k => (runCell step (f k) (inputsOf key k (a :: l))).2 := by
      intro ks' hnot
      refine flatMap_congr fun k hk => ?_
      have hne : key a ≠ k := fun heq => hnot (heq ▸ hk)
      rw [Function.update_of_ne hne.symm, inputsOf_cons_ne hne]
    rw [runAll]
    refine (Perm.append_left _ hrest).trans ?_
    simp only [flatMap_append, flatMap_cons, hothers front hfront, hothers back hback,
      Function.update_self, inputsOf_cons_same, runCell]
    rw [← append_assoc, append_assoc _ (runCell _ _ _).2]
    refine (perm_append_comm.append_right _).trans ?_
    rw [append_assoc]

/-- Outputs that carry the tag of their input come in the order of the inputs. -/
theorem runAll_snd_sublist {τ : Type} {tag : β → τ} {tagOf : α → τ}
    (h : ∀ s a b, (step s a).2 = some b → tag b = tagOf a) :
    ((runAll key step f l).2.map tag).Sublist (l.map tagOf) := by
  induction l generalizing f with
  | nil => exact Sublist.refl _
  | cons a l ih =>
    rw [runAll, map_append, map_cons]
    cases hout : (step (f (key a)) a).2 with
    | none => exact ih.cons _
    | some b =>
      rw [Option.toList_some, map_cons, map_nil, singleton_append, h _ _ _ hout]
      exact ih.cons_cons _

end Loams.Control
