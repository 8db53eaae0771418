/-
# Runs of a machine with inputs and outputs

A machine consumes one input at a time and produces an output.
-/

import Mathlib.Data.List.Induction

namespace Loams.Control

open List

/-- One step of a machine as it happened. -/
structure Event (σ ι ο : Type*) where
  before : σ
  input : ι
  output : ο
  after : σ

variable {σ ι ο : Type*} (step : σ → ι → ο × σ)

/-- The step of a machine from a state on an input. -/
def eventAt (s : σ) (i : ι) : Event σ ι ο := ⟨s, i, (step s i).1, (step s i).2⟩

/-- The state after the inputs. -/
def run (s : σ) (is : List ι) : σ := is.foldl (fun s i => (step s i).2) s

/-- What happened on the inputs. -/
def events (s : σ) : List ι → List (Event σ ι ο)
  | [] => []
  | i :: is => eventAt step s i :: events (step s i).2 is

variable {step} {s : σ} {i : ι} {is js : List ι}

@[simp] theorem run_nil : run step s [] = s := rfl

@[simp] theorem run_cons : run step s (i :: is) = run step (step s i).2 is := rfl

theorem run_append : run step s (is ++ js) = run step (run step s is) js :=
  foldl_append

theorem run_concat : run step s (is ++ [i]) = (step (run step s is) i).2 := by
  rw [run_append, run_cons, run_nil]

@[simp] theorem events_nil : events step s [] = [] := rfl

theorem events_append :
    events step s (is ++ js) = events step s is ++ events step (run step s is) js := by
  induction is generalizing s with
  | nil => rfl
  | cons i is ih => rw [cons_append, events, events, ih, run_cons, cons_append]

theorem events_concat :
    events step s (is ++ [i]) = events step s is ++ [eventAt step (run step s is) i] := by
  rw [events_append]
  rfl

/-- What holds at the start and is kept by every step of a run holds after it. -/
theorem run_induction {P : σ → Prop} (base : P s) (keep : ∀ s, ∀ i ∈ is, P s → P (step s i).2) :
    P (run step s is) := by
  induction is generalizing s with
  | nil => exact base
  | cons i is ih =>
    exact ih (keep s i mem_cons_self base) fun s j hj => keep s j (mem_cons_of_mem i hj)

/-- A property of histories holds of all histories that satisfy an assumption
when it holds of the empty one and every step extends it. -/
theorem history_induction {H : List ι → Prop} (shorter : ∀ is i, H (is ++ [i]) → H is)
    {P : List ι → List (Event σ ι ο) → σ → Prop} (base : P [] [] s)
    (extend : ∀ is i, H (is ++ [i]) → P is (events step s is) (run step s is) →
      P (is ++ [i]) (events step s is ++ [eventAt step (run step s is) i])
        (step (run step s is) i).2)
    (is : List ι) (hH : H is) : P is (events step s is) (run step s is) := by
  induction is using reverseRecOn with
  | nil => exact base
  | append_singleton is i ih =>
    rw [events_concat, run_concat]
    exact extend is i hH (ih (shorter is i hH))

/-! ## Lists that grew by one -/

section Concat

variable {α : Type*} {l : List α} {a b : α}

theorem mem_concat : b ∈ l ++ [a] ↔ b ∈ l ∨ b = a := by
  rw [mem_append, mem_singleton]

theorem forall_mem_concat {p : α → Prop} : (∀ b ∈ l ++ [a], p b) ↔ (∀ b ∈ l, p b) ∧ p a := by
  rw [forall_mem_append, forall_mem_singleton]

theorem pairwise_concat {R : α → α → Prop} :
    (l ++ [a]).Pairwise R ↔ l.Pairwise R ∧ ∀ b ∈ l, R b a := by
  simp [pairwise_append]

end Concat

/-! ## Conditions on the steps of a run -/

section Along

variable {σ ι : Type*} {next : σ → ι → σ} {P Q : σ → ι → Prop} {s : σ} {i : ι} {is : List ι}

/-- Every input meets a condition in the state that it finds. -/
def Along (next : σ → ι → σ) (P : σ → ι → Prop) : σ → List ι → Prop
  | _, [] => True
  | s, i :: is => P s i ∧ Along next P (next s i) is

theorem along_append {js : List ι} :
    Along next P s (is ++ js) ↔ Along next P s is ∧ Along next P (is.foldl next s) js := by
  induction is generalizing s with
  | nil => rw [nil_append, Along, true_and, foldl_nil]
  | cons i is ih => rw [cons_append, Along, Along, ih, foldl_cons, and_assoc]

/-- What holds at the start and is kept by every step that meets the condition holds after
every run whose steps all meet it. -/
theorem foldl_induction {R : σ → Prop} (base : R s) (keep : ∀ s i, P s i → R s → R (next s i))
    (h : Along next P s is) : R (is.foldl next s) := by
  induction is generalizing s with
  | nil => exact base
  | cons i is ih => exact ih (keep s i h.1 base) h.2

end Along

end Loams.Control
