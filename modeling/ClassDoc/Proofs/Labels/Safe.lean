/-
  Computations that never fail because of a label.
-/
import ClassDoc.Decode
import ClassDoc.Proofs.Fault
namespace ClassDoc

/-- The cause is a label that is missing or that is there twice. -/
def Cause.isLabel : Cause → Bool
  | malformedControlFlow _ | write (.undefinedLabel _) | write (.definedTwice _) => true
  | _ => false

/-- Monads whose computations can fail. -/
class Failing (m : Type → Type) [Monad m] [MonadExcept Fault m] [MonadLiftT (Except Fault) m] where
  /-- The computation can end with the fault. -/
  Fails {α : Type} (x : m α) (f : Fault) : Prop
  of_pure {α : Type} {a : α} {f : Fault} : ¬ Fails (pure a) f
  of_throw {α : Type} {e f : Fault} : Fails (throw e : m α) f → e = f
  of_lift {α : Type} {x : Except Fault α} {f : Fault} : Fails (liftM x : m α) f → x = .error f
  of_bind {α β : Type} {x : m α} {g : α → m β} {f : Fault} : Fails (x >>= g) f → Fails x f ∨ ∃ a, Fails (g a) f

instance : Failing (Except Fault) where
  Fails x f := x = .error f
  of_pure h := by cases h
  of_throw h := by
    cases h
    rfl
  of_lift h := h
  of_bind {_ _ x _ _} h := by
    cases x with
    | ok a => exact .inr ⟨a, h⟩
    | error e =>
      cases h
      exact .inl rfl

instance {σ : Type} : Failing (EStateM Fault σ) where
  Fails x f := ∃ s t, x s = .error f t
  of_pure h := by
    obtain ⟨_, _, h⟩ := h
    cases h
  of_throw h := by
    obtain ⟨_, _, h⟩ := h
    cases h
    rfl
  of_lift {_ x _} h := by
    obtain ⟨_, _, h⟩ := h
    cases x with
    | ok a => cases h
    | error e =>
      cases h
      rfl
  of_bind h := by
    obtain ⟨s, t, h⟩ := h
    rcases run_bind_eq_error.1 h with h | ⟨a, r, -, h⟩
    · exact .inl ⟨s, t, h⟩
    · exact .inr ⟨a, r, t, h⟩

instance : Failing Decode where
  Fails x f := ∃ s, x s = .error f
  of_pure h := by
    obtain ⟨_, h⟩ := h
    cases h
  of_throw h := by
    obtain ⟨_, h⟩ := h
    cases h
    rfl
  of_lift {_ x _} h := by
    obtain ⟨_, h⟩ := h
    cases x with
    | ok a => cases h
    | error e =>
      cases h
      rfl
  of_bind {_ _ x g _} h := by
    obtain ⟨s, h⟩ := h
    have hb : (x >>= g) s = (x s >>= fun y => g y.1 y.2) := rfl
    rw [hb] at h
    cases hs : x s with
    | ok a =>
      rw [hs] at h
      exact .inr ⟨a.1, a.2, h⟩
    | error e =>
      rw [hs] at h
      cases h
      exact .inl ⟨s, hs⟩

variable {m : Type → Type} [Monad m] [MonadExcept Fault m] [MonadLiftT (Except Fault) m] [Failing m]

/-- No failure is due to labels. -/
def LabelSafe {α : Type} (x : m α) : Prop := ∀ f, Failing.Fails x f → f.cause.isLabel = false

@[grind =] theorem isLabel_read (p : ReadProblem) : (Fault.read p).cause.isLabel = false := rfl

@[grind =] theorem isLabel_violation (v : Violation) : (Fault.violation v).cause.isLabel = false := rfl

@[grind =] theorem cause_write (p : WriteProblem) : (Fault.write p).cause = .write p := rfl

attribute [grind =] Cause.isLabel

namespace LabelSafe

variable {σ α β : Type} {x : EStateM Fault σ α}

/-! ## Steps -/

@[grind ←] theorem pure (a : α) : LabelSafe (Pure.pure a : m α) := fun _ h => absurd h Failing.of_pure

@[grind ←] theorem ok (a : α) : LabelSafe (.ok a : Except Fault α) := pure a

@[grind ←] theorem throw {f : Fault} (h : f.cause.isLabel = false) : LabelSafe (throw f : m α) := by
  intro f' hf
  rwa [← Failing.of_throw hf]

@[grind ←] theorem error {f : Fault} (h : f.cause.isLabel = false) : LabelSafe (.error f : Except Fault α) := throw h

@[grind ←] theorem fail {c : Cause} (h : c.isLabel = false) : LabelSafe (ClassDoc.fail c : Except Fault α) := error h

@[grind ←] theorem lift {x : Except Fault α} (h : LabelSafe x) : LabelSafe (liftM x : m α) := fun f hf =>
  h f (Failing.of_lift hf)

@[grind ←] theorem bind {x : m α} {g : α → m β} (hx : LabelSafe x) (hg : ∀ a, LabelSafe (g a)) :
    LabelSafe (x >>= g) := by
  intro f h
  rcases Failing.of_bind h with h | ⟨a, h⟩
  · exact hx f h
  · exact hg a f h

theorem bind_of {g : α → EStateM Fault σ β} (hx : LabelSafe x)
    (hg : ∀ s a t, x s = .ok a t → LabelSafe (g a)) : LabelSafe (x >>= g) := by
  rintro f ⟨s, t, h⟩
  rcases run_bind_eq_error.1 h with h | ⟨a, r, hs, h⟩
  · exact hx f ⟨s, t, h⟩
  · exact hg s a r hs f ⟨r, t, h⟩

@[grind ←] theorem ofDescriptor (x : Except Descriptor.Problem α) : LabelSafe (ofDescriptor x) := by
  cases x with
  | ok a => exact ok a
  | error p => exact error rfl

@[grind ←] theorem within (p : Place) {x : Except Fault α} (h : LabelSafe x) : LabelSafe (within p x) := by
  cases x with
  | ok a => exact ok a
  | error f => exact error (h f rfl)

@[grind ←] theorem inPlace (p : Place) (h : LabelSafe x) : LabelSafe (inPlace p x) := by
  rintro f ⟨s, t, hf⟩
  rw [ClassDoc.inPlace] at hf
  cases hs : x s with
  | ok a r => simp [hs] at hf
  | error e r =>
    rw [hs] at hf
    cases hf
    exact h e ⟨s, _, hs⟩

/-! ## Lists -/

@[grind ←] theorem mapM [LawfulMonad m] {f : α → m β} (xs : List α) (h : ∀ a ∈ xs, LabelSafe (f a)) :
    LabelSafe (xs.mapM f) := by
  induction xs with
  | nil => exact pure _
  | cons a xs ih =>
    rw [List.mapM_cons]
    exact bind (h a (by simp)) fun b => bind (ih fun a' ha => h a' (by simp [ha])) fun bs => pure _

@[grind ←] theorem forM {f : α → m PUnit} (xs : List α) (h : ∀ a ∈ xs, LabelSafe (f a)) : LabelSafe (xs.forM f) := by
  induction xs with
  | nil => exact pure _
  | cons a xs ih => exact bind (h a (by simp)) fun _ => ih fun a' ha => h a' (by simp [ha])

end LabelSafe

end ClassDoc
