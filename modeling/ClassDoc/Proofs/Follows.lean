/-
  Computations that succeed whenever others do.
-/
import ClassDoc.Proofs.Fault
namespace ClassDoc

/-- Monads whose computations end in a value and a state. -/
class Ending (m : Type → Type) [Monad m] [MonadExcept Fault m] [MonadLiftT (Except Fault) m] where
  State : Type
  Ends {α : Type} (x : m α) (s : State) (a : α) (t : State) : Prop
  pure_iff {α : Type} {a b : α} {s t : State} : Ends (pure a) s b t ↔ a = b ∧ s = t
  not_throw {α : Type} {f : Fault} {a : α} {s t : State} : ¬ Ends (throw f) s a t
  lift_iff {α : Type} {x : Except Fault α} {a : α} {s t : State} : Ends (liftM x) s a t ↔ x = .ok a ∧ s = t
  bind_iff {α β : Type} {x : m α} {g : α → m β} {b : β} {s t : State} :
    Ends (x >>= g) s b t ↔ ∃ a r, Ends x s a r ∧ Ends (g a) r b t

instance : Ending (Except Fault) where
  State := Unit
  Ends x _ a _ := x = .ok a
  pure_iff := by simp [pure, Except.pure]
  not_throw h := by cases h
  lift_iff := by simp
  bind_iff := by simp [bind_eq_ok]

instance {σ : Type} : Ending (EStateM Fault σ) where
  State := σ
  Ends x s a t := x s = .ok a t
  pure_iff {_ a b s t} := by
    have hp : (pure a : EStateM Fault σ _) s = .ok a s := rfl
    rw [hp, EStateM.Result.ok.injEq]
  not_throw h := by cases h
  lift_iff := run_lift_eq_ok
  bind_iff := run_bind_eq_ok

variable {m : Type → Type} [Monad m] [MonadExcept Fault m] [MonadLiftT (Except Fault) m] [Ending m]

/-- Where `x` ends, `y` ends too, with what `R` relates. -/
def Follows {α β : Type} (x : m α) (y : m β) (R : α → β → Prop) : Prop :=
  ∀ s a t, Ending.Ends x s a t → ∃ b, Ending.Ends y s b t ∧ R a b

namespace Follows

variable {α β γ δ : Type} {R : α → β → Prop} {S : γ → δ → Prop} {f : α → m γ} {x y : m α} {g : β → m δ} {xs : List α}

theorem of_eq (h : x = y) : Follows x y Eq := fun _ a _ hx => ⟨a, h ▸ hx, rfl⟩

theorem refl (x : m α) : Follows x x Eq := of_eq rfl

theorem pure {a : α} {b : β} (h : R a b) : Follows (Pure.pure a : m α) (Pure.pure b) R := by
  intro s a' t ha
  obtain ⟨rfl, rfl⟩ := Ending.pure_iff.1 ha
  exact ⟨b, Ending.pure_iff.2 ⟨rfl, rfl⟩, h⟩

theorem throw (f : Fault) (y : m β) : Follows (throw f : m α) y R := fun _ _ _ h => absurd h Ending.not_throw

theorem ok {a : α} {b : β} (h : R a b) : Follows (.ok a : Except Fault α) (.ok b) R := pure h

theorem error (f : Fault) (y : Except Fault β) : Follows (.error f : Except Fault α) y R := throw f y

theorem mono {Q : α → β → Prop} {y : m β} (h : Follows x y R) (hR : ∀ a b, R a b → Q a b) : Follows x y Q := by
  intro s a t ha
  obtain ⟨b, hb, hab⟩ := h s a t ha
  exact ⟨b, hb, hR a b hab⟩

theorem bind {y : m β} (h : Follows x y R)
    (hf : ∀ a b, R a b → Follows (f a) (g b) S) : Follows (x >>= f) (y >>= g) S := by
  intro s c t hc
  obtain ⟨a, r, ha, hc⟩ := Ending.bind_iff.1 hc
  obtain ⟨b, hb, hab⟩ := h s a r ha
  obtain ⟨d, hd, hcd⟩ := hf a b hab r c t hc
  exact ⟨d, Ending.bind_iff.2 ⟨b, r, hb, hd⟩, hcd⟩

theorem bind_eq {g : α → m δ} (h : Follows x y Eq) (hf : ∀ a, Follows (f a) (g a) S) : Follows (x >>= f) (y >>= g) S :=
  h.bind fun a _ hab => hab ▸ hf a

theorem map (h : Follows x y Eq) (f : α → γ) :
    Follows (x >>= fun a => Pure.pure (f a)) (y >>= fun a => Pure.pure (f a)) Eq :=
  h.bind_eq fun _ => pure rfl

theorem lift {x : Except Fault α} {y : Except Fault β} (h : Follows x y R) : Follows (liftM x : m α) (liftM y) R := by
  intro s a t ha
  obtain ⟨hx, rfl⟩ := Ending.lift_iff.1 ha
  obtain ⟨b, hb, hab⟩ := h () a () hx
  exact ⟨b, Ending.lift_iff.2 ⟨hb, rfl⟩, hab⟩

theorem ite {c d : Prop} [Decidable c] [Decidable d] {x' : m α} {y y' : m β} (hc : c ↔ d) (h : Follows x y R)
    (h' : Follows x' y' R) : Follows (if c then x else x') (if d then y else y') R := by
  by_cases hd : d
  · rwa [if_pos (hc.2 hd), if_pos hd]
  · rwa [if_neg (hc.not.2 hd), if_neg hd]

theorem mapM [LawfulMonad m] {ys : List β}
    (h : List.Forall₂ (fun x y => Follows (f x) (g y) S) xs ys) : Follows (xs.mapM f) (ys.mapM g) (List.Forall₂ S) := by
  induction h with
  | nil => exact pure .nil
  | cons hx _ ih =>
    rw [List.mapM_cons, List.mapM_cons]
    exact hx.bind fun _ _ hcd => ih.bind fun _ _ hcs => pure (.cons hcd hcs)

theorem mapM_map [LawfulMonad m] {g : β → m γ} {k : α → β}
    (h : ∀ x ∈ xs, Follows (f x) (g (k x)) Eq) : Follows (xs.mapM f) ((xs.map k).mapM g) Eq := by
  refine (mapM (S := Eq) ?_).mono fun _ _ h => List.forall₂_eq_eq_eq ▸ h
  rw [List.forall₂_map_right_iff, List.forall₂_same]
  exact h

theorem inPlace {σ : Type} {x : EStateM Fault σ α} {y : EStateM Fault σ β} (h : Follows x y R) (p p' : Place) :
    Follows (ClassDoc.inPlace p x) (ClassDoc.inPlace p' y) R := by
  intro s a t ha
  obtain ⟨b, hb, hab⟩ := h s a t (inPlace_eq_ok.1 ha)
  exact ⟨b, inPlace_eq_ok.2 hb, hab⟩

end Follows

end ClassDoc
