/-
  Lists that are related element by element.
-/
import Mathlib
namespace ClassDoc

open List

variable {γ δ κ : Type} {R : γ → δ → Prop} {xs : List γ} {ys : List δ}

theorem forall₂_exists (h : ∀ x ∈ xs, ∃ y, R x y) :
    ∃ ys, Forall₂ R xs ys := by
  induction xs with
  | nil => exact ⟨[], .nil⟩
  | cons x xs ih =>
    obtain ⟨y, hy⟩ := h x (by simp)
    obtain ⟨ys, hys⟩ := ih fun x hx => h x (by simp [hx])
    exact ⟨y :: ys, .cons hy hys⟩

theorem forall₂_choose {Q : γ → κ → Prop} {f : κ → δ} (h : Forall₂ R xs ys)
    (hR : ∀ x ∈ xs, ∀ y ∈ ys, R x y → ∃ z, Q x z ∧ f z = y) : ∃ zs, Forall₂ Q xs zs ∧ zs.map f = ys := by
  induction h with
  | nil => exact ⟨[], .nil, rfl⟩
  | @cons x y xs ys hxy _ ih =>
    obtain ⟨z, hz, rfl⟩ := hR x (by simp) y (by simp) hxy
    obtain ⟨zs, hzs, rfl⟩ := ih fun x hx y hy => hR x (by simp [hx]) y (by simp [hy])
    exact ⟨z :: zs, .cons hz hzs, rfl⟩

theorem forall₂_zipIdx (h : Forall₂ R xs ys) (k : Nat) :
    Forall₂ (fun x y => R x.1 y.1 ∧ x.2 = y.2 ∧ ∃ i, x.2 = k + i ∧ xs[i]? = some x.1) (xs.zipIdx k) (ys.zipIdx k) := by
  induction h generalizing k with
  | nil => exact .nil
  | cons hx _ ih =>
    refine .cons ⟨hx, rfl, 0, rfl, rfl⟩ ((ih (k + 1)).imp ?_)
    rintro x y ⟨h1, h2, i, h3, h4⟩
    exact ⟨h1, h2, i + 1, by omega, by simpa using h4⟩

theorem forall₂_filter {f : γ → Bool} {g : δ → Bool}
    (h : Forall₂ R xs ys) (hfg : ∀ x y, R x y → f x = g y) :
    Forall₂ (fun x y => R x y ∧ x ∈ xs ∧ f x = true) (xs.filter f) (ys.filter g) := by
  induction h with
  | nil => exact .nil
  | @cons x y xs ys hx _ ih =>
    have ih' := ih.imp fun a b hab => (⟨hab.1, mem_cons_of_mem x hab.2.1, hab.2.2⟩ : R a b ∧ a ∈ x :: xs ∧ f a = true)
    by_cases hf : f x = true
    · rw [filter_cons_of_pos hf, filter_cons_of_pos (hfg _ _ hx ▸ hf)]
      exact .cons ⟨hx, by simp, hf⟩ ih'
    · rw [filter_cons_of_neg hf, filter_cons_of_neg (hfg _ _ hx ▸ hf)]
      exact ih'

theorem forall₂_zip (h : Forall₂ R xs ys) :
    Forall₂ (fun x z => x ∈ xs ∧ R x z.2 ∧ z.1 = x) xs (xs.zip ys) := by
  induction h with
  | nil => exact .nil
  | cons hx _ ih =>
    exact .cons ⟨by simp, hx, rfl⟩ (ih.imp fun x z hz => ⟨mem_cons_of_mem _ hz.1, hz.2⟩)

theorem forall₂_trans {S : δ → κ → Prop} {zs : List κ} (h : Forall₂ R xs ys) (h' : Forall₂ S ys zs) :
    Forall₂ (fun x z => ∃ y, R x y ∧ S y z) xs zs := by
  induction h generalizing zs with
  | nil =>
    cases h'
    exact .nil
  | cons hx _ ih =>
    cases h' with
    | cons hy hys => exact .cons ⟨_, hx, hy⟩ (ih hys)

theorem forall₂_getElem? (h : Forall₂ R xs ys) {i : Nat}
    {x : γ} (hx : xs[i]? = some x) : ∃ y, ys[i]? = some y ∧ R x y := by
  induction h generalizing i with
  | nil => simp at hx
  | @cons x' y' xs ys hxy _ ih =>
    cases i with
    | zero =>
      obtain rfl : x' = x := by simpa using hx
      exact ⟨y', rfl, hxy⟩
    | succ i => exact ih hx

theorem exists_of_mem_right (h : Forall₂ R xs ys) {y : δ} (hy : y ∈ ys) : ∃ x ∈ xs, R x y := by
  obtain ⟨i, hi⟩ := mem_iff_getElem?.1 hy
  obtain ⟨x, hx, hr⟩ := forall₂_getElem? h.flip hi
  exact ⟨x, mem_of_getElem? hx, hr⟩

theorem flatMap_eq_of_forall₂ {f : γ → List κ} {g : δ → List κ} (h : Forall₂ (fun x y => f x = g y) xs ys) :
    xs.flatMap f = ys.flatMap g := by
  induction h with
  | nil => rfl
  | cons hxy _ ih => rw [flatMap_cons, flatMap_cons, hxy, ih]

theorem filterMap_congr_of_forall₂ {f : γ → Option κ} {g : δ → Option κ} (h : Forall₂ (fun x y => f x = g y) xs ys) :
    xs.filterMap f = ys.filterMap g := by
  induction h with
  | nil => rfl
  | cons hxy _ ih => simp only [filterMap_cons, hxy, ih]

end ClassDoc
