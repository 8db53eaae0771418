/-
# Fallible programs over a mutable state

A program reads and writes a state and stops with a value or an error.
-/

import Mathlib.Tactic.Common

namespace Loams.Control

section Checks

variable {ε α β : Type}

/-- Succeeds when the condition holds. -/
def require (ok : Prop) [Decidable ok] (e : ε) : Except ε Unit :=
  if ok then .ok () else .error e

theorem require_ne_error {ok : Prop} [Decidable ok] {e e' : ε} (h : e ≠ e') :
    require ok e ≠ .error e' := by
  unfold require
  split_ifs <;> simp [h]

@[simp] theorem require_eq_ok {ok : Prop} [Decidable ok] {e : ε} {u : Unit} :
    require ok e = .ok u ↔ ok := by
  unfold require
  split_ifs with h <;> simp [h]

/-- Checks in sequence succeed when each of them does. -/
theorem except_bind_ok {x : Except ε α} {f : α → Except ε β} {b : β} :
    (x >>= f) = .ok b ↔ ∃ a, x = .ok a ∧ f a = .ok b := by
  cases x <;> simp [bind, Except.bind]

theorem except_map_ok {x : Except ε α} {f : α → β} {b : β} :
    x.map f = .ok b ↔ ∃ a, x = .ok a ∧ f a = b := by
  cases x <;> simp [Except.map]

/-- A last step that maps the answer keeps the errors. -/
theorem except_map_error {x : Except ε α} {f : α → β} {e : ε} :
    (do let a ← x; return f a) = .error e ↔ x = .error e := by
  cases x <;> simp [bind, Except.bind, pure, Except.pure]

/-- A check of every element succeeds when each check does. -/
theorem forM_eq_ok {ε α : Type} {f : α → Except ε Unit} {l : List α} {u : Unit} :
    l.forM f = .ok u ↔ ∀ a ∈ l, f a = .ok () := by
  induction l with
  | nil => simp [pure, Except.pure]
  | cons a l ih =>
    rw [List.forM_eq_forM] at ih ⊢
    rw [List.forM_cons, except_bind_ok]
    simp only [List.mem_cons, forall_eq_or_imp, ← ih]
    exact ⟨fun ⟨_, ha, hrest⟩ => ⟨ha, hrest⟩, fun ⟨ha, hrest⟩ => ⟨_, ha, hrest⟩⟩

/-- A map of checks succeeds with the answers of the checks. -/
theorem mapM_eq_ok {ε α β : Type} {f : α → Except ε β} {l : List α} {bs : List β} :
    l.mapM f = .ok bs ↔ List.Forall₂ (fun a b => f a = .ok b) l bs := by
  induction l generalizing bs with
  | nil =>
    constructor
    · intro h
      obtain rfl : [] = bs := Except.ok.inj h
      exact .nil
    · rintro ⟨⟩
      rfl
  | cons a l ih =>
    rw [List.mapM_cons, except_bind_ok]
    constructor
    · rintro ⟨b, hb, hrest⟩
      obtain ⟨bs', hbs, hcons⟩ := except_bind_ok.mp hrest
      obtain rfl : b :: bs' = bs := Except.ok.inj hcons
      exact .cons hb (ih.mp hbs)
    · rintro (_ | ⟨hb, hbs⟩)
      exact ⟨_, hb, except_bind_ok.mpr ⟨_, ih.mpr hbs, rfl⟩⟩

/-- Checks whose answers are known. -/
theorem eq_map_of_mapM {ε α β : Type} {f : α → Except ε β} {g : α → β} {l : List α} {bs : List β}
    (hf : ∀ a b, f a = .ok b → b = g a) (h : l.mapM f = .ok bs) : bs = l.map g := by
  rw [mapM_eq_ok] at h
  induction h with
  | nil => rfl
  | cons hb _ ih => rw [List.map_cons, ← ih, hf _ _ hb]

end Checks

/-- A program over the state `σ` with errors `ε`: the outcome and the state it
leaves behind. -/
def Program (σ ε α : Type) := σ → Except ε α × σ

namespace Program

variable {σ ε α β : Type}

/-- Runs a program from a state. -/
def exec (m : Program σ ε α) (s : σ) : Except ε α × σ := m s

instance : Monad (Program σ ε) where
  pure a s := (.ok a, s)
  bind m f s :=
    match m s with
    | (.ok a, s') => f a s'
    | (.error e, s') => (.error e, s')

/-- Stops with an error. -/
def fail (e : ε) : Program σ ε α := fun s => (.error e, s)

/-- The current state. -/
def read : Program σ ε σ := fun s => (.ok s, s)

/-- Changes the state. -/
def update (f : σ → σ) : Program σ ε Unit := fun s => (.ok (), f s)

/-- A check that does not touch the state. -/
def ofExcept (x : Except ε α) : Program σ ε α := fun s => (x, s)

instance : MonadLift (Except ε) (Program σ ε) := ⟨ofExcept⟩

variable {m : Program σ ε α} {f : α → Program σ ε β} {s s' : σ} {a : α} {b : β} {e : ε}

@[simp] theorem exec_pure : (pure a : Program σ ε α).exec s = (.ok a, s) := rfl

@[simp] theorem exec_fail : (fail e : Program σ ε α).exec s = (.error e, s) := rfl

@[simp] theorem exec_read : (read : Program σ ε σ).exec s = (.ok s, s) := rfl

@[simp] theorem exec_update (g : σ → σ) :
    (update g : Program σ ε Unit).exec s = (.ok (), g s) := rfl

@[simp] theorem exec_ofExcept (x : Except ε α) : (ofExcept x : Program σ ε α).exec s = (x, s) := rfl

@[simp] theorem exec_liftM (x : Except ε α) : (liftM x : Program σ ε α).exec s = (x, s) := rfl

@[simp] theorem exec_monadLift (x : Except ε α) :
    (monadLift x : Program σ ε α).exec s = (x, s) := rfl

theorem exec_bind : (m >>= f).exec s =
    match m.exec s with
    | (.ok a, s') => (f a).exec s'
    | (.error e, s') => (.error e, s') := rfl

@[simp] theorem exec_read_bind (g : σ → Program σ ε β) : (read >>= g).exec s = (g s).exec s := rfl

@[simp] theorem exec_update_bind (g : σ → σ) (h : Unit → Program σ ε β) :
    (update g >>= h).exec s = (h ()).exec (g s) := rfl

@[simp] theorem exec_pure_bind : ((pure a : Program σ ε α) >>= f).exec s = (f a).exec s := rfl

@[simp] theorem exec_ok_bind :
    ((liftM (Except.ok a : Except ε α) : Program σ ε α) >>= f).exec s = (f a).exec s := rfl

theorem exec_require_bind {ok : Prop} [Decidable ok] {f : Unit → Program σ ε β} (h : ok) :
    ((liftM (require ok e) : Program σ ε Unit) >>= f).exec s = (f ()).exec s := by
  rw [require_eq_ok.mpr h, exec_ok_bind]

@[simp] theorem exec_error_bind :
    ((liftM (Except.error e : Except ε α) : Program σ ε α) >>= f).exec s = (.error e, s) := rfl

@[simp] theorem exec_fail_bind : ((fail e : Program σ ε α) >>= f).exec s = (.error e, s) := rfl

theorem exec_ite {c : Prop} [Decidable c] (m m' : Program σ ε α) :
    (if c then m else m').exec s = if c then m.exec s else m'.exec s := by
  split_ifs <;> rfl

/-- A program that succeeds went through each of its parts. -/
theorem exec_bind_ok : (m >>= f).exec s = (.ok b, s') ↔
    ∃ a s₁, m.exec s = (.ok a, s₁) ∧ (f a).exec s₁ = (.ok b, s') := by
  rw [exec_bind]
  rcases hm : m.exec s with ⟨_ | a, s₁⟩
  · simp
  · constructor
    · exact fun h => ⟨a, s₁, rfl, h⟩
    · rintro ⟨a', s₂, h₁, h₂⟩
      obtain ⟨rfl, rfl⟩ : a = a' ∧ s₁ = s₂ := by simpa using h₁
      exact h₂

theorem exec_bind_of_ok {s₁ : σ} (h : m.exec s = (.ok a, s₁)) :
    (m >>= f).exec s = (f a).exec s₁ := by
  rw [exec_bind, h]

/-- A last step that wraps the answer. -/
theorem exec_answer_eq_ok {g : α → β} (hg : Function.Injective g) :
    (m >>= fun a => pure (g a)).exec s = (.ok (g a), s') ↔ m.exec s = (.ok a, s') := by
  rw [exec_bind_ok]
  constructor
  · rintro ⟨a', s₁, hm, hpure⟩
    obtain ⟨heq, rfl⟩ : g a' = g a ∧ s₁ = s' := by simpa using hpure
    rw [hm, hg heq]
  · intro hm
    exact ⟨a, s', hm, rfl⟩

/-- A check that cannot give an error leaves it to the continuation. -/
theorem exec_check_bind_error {x : Except ε α}
    (h : ((liftM x : Program σ ε α) >>= f).exec s = (.error e, s')) (hx : x ≠ .error e) :
    ∃ a, (f a).exec s = (.error e, s') := by
  cases x with
  | error e' => exact absurd (congrArg Except.error (Except.error.inj (Prod.mk.inj h).1)) hx
  | ok a => exact ⟨a, h⟩

/-- A check followed by a continuation succeeds when both do. -/
theorem exec_check_bind_ok {x : Except ε α} :
    ((liftM x : Program σ ε α) >>= f).exec s = (.ok b, s') ↔
      ∃ a, x = .ok a ∧ (f a).exec s = (.ok b, s') := by
  rw [exec_bind_ok]
  constructor
  · rintro ⟨a, s₁, h₁, h₂⟩
    obtain ⟨rfl, rfl⟩ : x = .ok a ∧ s = s₁ := by simpa using h₁
    exact ⟨a, rfl, h₂⟩
  · rintro ⟨a, rfl, h₂⟩
    exact ⟨a, s, rfl, h₂⟩

theorem exec_read_bind_ok {g : σ → Program σ ε β} :
    (read >>= g).exec s = (.ok b, s') ↔ (g s).exec s = (.ok b, s') := Iff.rfl

/-! ## Errors that leave the state alone -/

/-- From the state `s`, every error leaves the state as it was. -/
def FailsClean (m : Program σ ε α) (s : σ) : Prop :=
  ∀ e s', m.exec s = (.error e, s') → s' = s

/-- The program never stops with an error. -/
def Succeeds (m : Program σ ε α) : Prop := ∀ s, ∃ a s', m.exec s = (.ok a, s')

@[simp] theorem succeeds_pure : (pure a : Program σ ε α).Succeeds := fun s => ⟨a, s, rfl⟩

@[simp] theorem succeeds_update_bind {g : σ → σ} {h : Unit → Program σ ε β} :
    (h ()).Succeeds → (update g >>= h).Succeeds := fun hh s => hh (g s)

theorem Succeeds.failsClean (h : m.Succeeds) : m.FailsClean s := by
  intro e s' hs
  obtain ⟨a, s₁, ha⟩ := h s
  rw [ha] at hs
  simp at hs

theorem Succeeds.bind (hm : m.Succeeds) (hf : ∀ a, (f a).Succeeds) : (m >>= f).Succeeds := by
  intro s
  obtain ⟨a, s₁, ha⟩ := hm s
  obtain ⟨b, s₂, hb⟩ := hf a s₁
  exact ⟨b, s₂, exec_bind_ok.mpr ⟨a, s₁, ha, hb⟩⟩

/-- Writes that cannot fail, behind a part that leaves the state alone if it does. -/
theorem FailsClean.bind (hm : m.FailsClean s) (hf : ∀ a, (f a).Succeeds) :
    (m >>= f).FailsClean s := by
  intro e s' h
  rw [exec_bind] at h
  rcases hr : m.exec s with ⟨e₁ | a, s₁⟩
  · rw [hr] at h
    rw [← (Prod.mk.inj h).2]
    exact hm e₁ s₁ hr
  · rw [hr] at h
    obtain ⟨b, s₂, hb⟩ := hf a s₁
    cases hb.symm.trans h

@[simp] theorem failsClean_pure : (pure a : Program σ ε α).FailsClean s :=
  succeeds_pure.failsClean

/-- A single write with an answer behind it. -/
@[simp] theorem failsClean_write {g : σ → σ} :
    (update g >>= fun _ => (pure a : Program σ ε α)).FailsClean s :=
  Succeeds.failsClean (succeeds_update_bind succeeds_pure)

@[simp] theorem failsClean_fail : (fail e : Program σ ε α).FailsClean s := by
  intro e' s' h
  exact (Prod.mk.inj h).2.symm

@[simp] theorem failsClean_read_bind {g : σ → Program σ ε β} :
    (read >>= g).FailsClean s ↔ (g s).FailsClean s := Iff.rfl

/-- A check in front of a program: only what follows a passed check matters. -/
@[simp] theorem failsClean_check_bind {x : Except ε α} :
    ((liftM x : Program σ ε α) >>= f).FailsClean s ↔ ∀ a, x = .ok a → (f a).FailsClean s := by
  constructor
  · rintro h a rfl e s' hs
    exact h e s' hs
  · intro h e s' hs
    cases x with
    | error _ => exact (Prod.mk.inj hs).2.symm
    | ok a => exact h a rfl e s' hs

/-! ## Programs that answer alike -/

section Correspondence

variable {τ δ γ : Type} {R : σ → τ → Prop} {E : ε → δ → Prop} {V : β → γ → Prop}

/-- Two answers correspond: both are values, or both are errors, that do. -/
def AnswersAlike (E : ε → δ → Prop) (V : β → γ → Prop) : Except ε β → Except δ γ → Prop
  | .ok b, .ok c => V b c
  | .error e, .error d => E e d
  | _, _ => False

/-- Two outcomes correspond: their states and their answers do. -/
def Corresponds (R : σ → τ → Prop) (E : ε → δ → Prop) (V : β → γ → Prop)
    (x : Except ε β × σ) (y : Except δ γ × τ) : Prop :=
  R x.2 y.2 ∧ AnswersAlike E V x.1 y.1

/-- Checks that answer alike, followed by continuations that do unless the first one
ends in an outcome of its own. -/
theorem check_bind_or_corresponds {α' : Type} {W : α → α' → Prop} {x : Except ε α}
    {y : Except δ α'} {g : α' → Program τ δ γ} {t : τ} {P : Prop} {r : Except ε β × σ}
    (hst : R s t) (hxy : AnswersAlike E W x y) (hrest : ∀ a a', W a a' →
      P ∧ (f a).exec s = r ∨ Corresponds R E V ((f a).exec s) ((g a').exec t)) :
    P ∧ ((liftM x : Program σ ε α) >>= f).exec s = r ∨
      Corresponds R E V (((liftM x : Program σ ε α) >>= f).exec s)
        (((liftM y : Program τ δ α') >>= g).exec t) := by
  cases x with
  | error e =>
    cases y with
    | error d => exact .inr ⟨hst, hxy⟩
    | ok a' => exact hxy.elim
  | ok a =>
    cases y with
    | error d => exact hxy.elim
    | ok a' => exact hrest a a' hxy

theorem corresponds_check_bind {α' : Type} {W : α → α' → Prop} {x : Except ε α} {y : Except δ α'}
    {g : α' → Program τ δ γ} {t : τ} (hst : R s t) (hxy : AnswersAlike E W x y)
    (hrest : ∀ a a', W a a' → Corresponds R E V ((f a).exec s) ((g a').exec t)) :
    Corresponds R E V (((liftM x : Program σ ε α) >>= f).exec s)
      (((liftM y : Program τ δ α') >>= g).exec t) :=
  (check_bind_or_corresponds (P := False) (r := (liftM x >>= f : Program σ ε β).exec s) hst hxy
    fun a a' h => .inr (hrest a a' h)).resolve_left And.left

end Correspondence

end Program

end Loams.Control
