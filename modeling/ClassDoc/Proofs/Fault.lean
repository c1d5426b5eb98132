/-
  Computations that can fail, by what they do when they succeed.
-/
import ClassDoc.Fault.State
import ClassDoc.Model.Validate
import ClassDoc.Proofs.Related
namespace ClassDoc

open List

variable {α β γ ε : Type} {xs : List α} {σ : Type} {f : α → Except ε β} {a : α} {x : EStateM ε σ α} {ys : List β}

/-! ## Steps -/

@[simp] theorem ok_bind (a : α) (f : α → Except ε β) : (Except.ok a >>= f) = f a := rfl

@[simp] theorem error_bind (e : ε) (f : α → Except ε β) : (Except.error e >>= f) = .error e := rfl

@[simp] theorem pure_eq_ok (a : α) : (pure a : Except ε α) = .ok a := rfl

theorem bind_eq_ok {x : Except ε α} {b : β} : (x >>= f) = .ok b ↔ ∃ a, x = .ok a ∧ f a = .ok b := by
  cases x <;> simp

instance decidableEqOk [DecidableEq α] (x : Except ε α) (a : α) : Decidable (x = .ok a) :=
  match x with
  | .ok b => decidable_of_iff (b = a) (by simp)
  | .error _ => .isFalse (by simp)

instance decidableExistsOk (x : Except ε α) (p : α → Prop) [DecidablePred p] : Decidable (∃ a, x = .ok a ∧ p a) :=
  match x with
  | .ok a => decidable_of_iff (p a) (by simp)
  | .error _ => .isFalse (by simp)

theorem exists_eq_ok {x : Except ε α} : (∃ a, x = .ok a) ↔ x.isOk = true := by
  cases x <;> simp [Except.isOk, Except.toBool]

@[simp] theorem within_ok (p : Place) (a : α) : within p (.ok a) = .ok a := rfl

theorem within_eq_ok {p : Place} {x : Except Fault α} : within p x = .ok a ↔ x = .ok a := by
  cases x <;> simp [within]

theorem ensure_eq_ok {holds : Bool} {v : Violation} {u : Unit} : ensure holds v = .ok u ↔ holds = true := by
  cases holds <;> simp [ensure]

theorem fail_ne_ok {c : Cause} : (fail c : Except Fault α) ≠ .ok a := by simp [fail]

/-! ## Steps with a state -/

theorem run_bind_eq_ok {f : α → EStateM ε σ β} {s t : σ} {b : β} :
    (x >>= f) s = .ok b t ↔ ∃ a r, x s = .ok a r ∧ f a r = .ok b t := by
  have hb : (x >>= f) s = EStateM.bind x f s := rfl
  rw [hb, EStateM.bind]
  cases x s with
  | ok a r =>
    constructor
    · exact fun h => ⟨a, r, rfl, h⟩
    · rintro ⟨_, _, h, h'⟩
      cases h
      exact h'
  | error e r => simp

theorem run_bind_eq_error {f : α → EStateM ε σ β} {s t : σ} {e : ε} :
    (x >>= f) s = .error e t ↔ x s = .error e t ∨ ∃ a r, x s = .ok a r ∧ f a r = .error e t := by
  have hb : (x >>= f) s = EStateM.bind x f s := rfl
  rw [hb, EStateM.bind]
  cases x s with
  | ok a r =>
    constructor
    · exact fun h => .inr ⟨a, r, rfl, h⟩
    · rintro (h | ⟨_, _, h, h'⟩)
      · cases h
      · cases h
        exact h'
  | error e r => simp

theorem run_lift_eq_ok {x : Except Fault α} {s t : σ} :
    (liftM x : EStateM Fault σ α) s = .ok a t ↔ x = .ok a ∧ s = t := by
  cases x with
  | ok b =>
    have hl : (liftM (.ok b : Except Fault α) : EStateM Fault σ α) s = .ok b s := rfl
    rw [hl]
    simp
  | error f =>
    have hl : (liftM (.error f : Except Fault α) : EStateM Fault σ α) s = .error f s := rfl
    rw [hl]
    simp

theorem inPlace_eq_ok {p : Place} {x : EStateM Fault σ α} {s t : σ} : inPlace p x s = .ok a t ↔ x s = .ok a t := by
  rw [inPlace]
  cases x s <;> simp

theorem run_forM_cons {f : α → EStateM ε σ PUnit} {x : α} {s t : σ} :
    (x :: xs).forM f s = .ok () t ↔ ∃ r, f x s = .ok () r ∧ xs.forM f r = .ok () t := by
  have hs : (x :: xs).forM f = (f x >>= fun _ => xs.forM f) := rfl
  rw [hs, run_bind_eq_ok]
  exact ⟨fun ⟨_, r, h⟩ => ⟨r, h⟩, fun ⟨r, h⟩ => ⟨(), r, h⟩⟩

theorem run_forM_append {f : α → EStateM ε σ PUnit} {ys : List α} {s t : σ} :
    (xs ++ ys).forM f s = .ok () t ↔ ∃ r, xs.forM f s = .ok () r ∧ ys.forM f r = .ok () t := by
  induction xs generalizing s with
  | nil => exact ⟨fun h => ⟨s, rfl, h⟩, fun ⟨_, h, h'⟩ => by cases h; exact h'⟩
  | cons x xs ih =>
    rw [cons_append, run_forM_cons]
    simp only [ih, run_forM_cons]
    exact ⟨fun ⟨r, h, q, h', h''⟩ => ⟨q, ⟨r, h, h'⟩, h''⟩, fun ⟨q, ⟨r, h, h'⟩, h''⟩ => ⟨r, h, q, h', h''⟩⟩

def succeeds (p : α → σ → Bool) : EStateM.Result ε σ α → Bool
  | .ok a s => p a s
  | .error _ _ => false

theorem exists_of_succeeds {p : α → σ → Bool} {r : EStateM.Result ε σ α} (h : succeeds p r = true) :
    ∃ a s, r = .ok a s ∧ p a s = true := by
  cases r with
  | ok a s => exact ⟨a, s, rfl, h⟩
  | error f s => cases h

/-! ## Lists -/

theorem mapM_eq_ok_iff : xs.mapM f = .ok ys ↔ Forall₂ (fun x y => f x = .ok y) xs ys := by
  induction xs generalizing ys with
  | nil => cases ys <;> simp
  | cons x xs ih =>
    rw [mapM_cons]
    cases ys with
    | nil => simp [bind_eq_ok]
    | cons y ys => simp [bind_eq_ok, ih]

theorem run_mapM_map_iff {f : α → EStateM ε σ γ} {g : α → EStateM ε σ β} {k : β → γ}
    (h : ∀ x s c t, f x s = .ok c t ↔ ∃ b, g x s = .ok b t ∧ k b = c) {s t : σ} {cs : List γ} :
    xs.mapM f s = .ok cs t ↔ ∃ bs, xs.mapM g s = .ok bs t ∧ bs.map k = cs := by
  induction xs generalizing s t cs with
  | nil =>
    constructor
    · rintro ⟨⟩
      exact ⟨[], rfl, rfl⟩
    · rintro ⟨_, ⟨⟩, rfl⟩
      rfl
  | cons x xs ih =>
    simp only [mapM_cons, run_bind_eq_ok, h, ih]
    constructor
    · rintro ⟨_, r, ⟨b, hb, rfl⟩, _, _, ⟨bs, hbs, rfl⟩, hc⟩
      cases hc
      exact ⟨_, ⟨b, r, hb, bs, _, hbs, rfl⟩, rfl⟩
    · rintro ⟨_, ⟨b, r, hb, bs, _, hbs, hc⟩, rfl⟩
      cases hc
      exact ⟨_, r, ⟨b, hb, rfl⟩, _, _, ⟨bs, hbs, rfl⟩, rfl⟩

theorem exists_of_mem_mapM (h : xs.mapM f = .ok ys) {x : α} (hx : x ∈ xs) : ∃ y ∈ ys, f x = .ok y :=
  exists_of_mem_right (mapM_eq_ok_iff.1 h).flip hx

theorem exists_of_mem_run_mapM {f : α → EStateM ε σ β} {s t : σ} (h : xs.mapM f s = .ok ys t) {x : α} (hx : x ∈ xs) :
    ∃ y s' t', f x s' = .ok y t' := by
  induction xs generalizing ys s t with
  | nil => cases hx
  | cons z xs ih =>
    rw [mapM_cons] at h
    obtain ⟨y, r, hy, h⟩ := run_bind_eq_ok.1 h
    obtain ⟨ys', r', hys, -⟩ := run_bind_eq_ok.1 h
    rcases mem_cons.1 hx with rfl | hx
    · exact ⟨y, s, r, hy⟩
    · exact ih hys hx

theorem mapM_map_eq_ok_map {f : α → β} {g : β → Except ε γ} {k : α → γ}
    (h : ∀ x ∈ xs, g (f x) = .ok (k x)) : (xs.map f).mapM g = .ok (xs.map k) := by
  rw [mapM_eq_ok_iff, forall₂_map_left_iff, forall₂_map_right_iff, forall₂_same]
  exact h

theorem mapM_map_eq_ok {f : α → β} {g : β → Except ε α} (h : ∀ x ∈ xs, g (f x) = .ok x) :
    (xs.map f).mapM g = .ok xs := by
  simpa using mapM_map_eq_ok_map (k := id) h

theorem mapM_zipIdx_map_eq_ok {f : α → β} {g : β × Nat → Except ε α}
    (h : ∀ x ∈ xs, ∀ i, g (f x, i) = .ok x) (start : Nat) : ((xs.map f).zipIdx start).mapM g = .ok xs := by
  induction xs generalizing start with
  | nil => rfl
  | cons x xs ih =>
    rw [map_cons, zipIdx_cons, mapM_cons, h x (by simp), ok_bind, ih fun y hy => h y (by simp [hy])]
    rfl

theorem forM_eq_ok {f : α → Except ε Unit} (xs : List α) {u : Unit} :
    xs.forM f = .ok u ↔ ∀ x ∈ xs, f x = .ok () := by
  induction xs with
  | nil => simp
  | cons x xs ih =>
    have hs : (x :: xs).forM f = (f x >>= fun _ => xs.forM f) := rfl
    rw [hs]
    cases hx : f x with
    | error e => simp [hx]
    | ok a => rw [ok_bind, ih]; simp [hx]

/-! ## What holds of results -/

/-- Where `x` succeeds, `p` holds. -/
def Ensures (p : α → Prop) (x : Except ε α) : Prop := ∀ a, x = .ok a → p a

namespace Ensures

variable {p : α → Prop} {q : β → Prop}

theorem ok (h : p a) : Ensures p (.ok a : Except ε α) := by
  rintro _ ⟨⟩
  exact h

theorem error {e : ε} : Ensures p (.error e) := by
  rintro _ ⟨⟩

theorem imp {x : Except ε α} {r : α → Prop} (hx : Ensures p x) (h : ∀ a, p a → r a) : Ensures r x :=
  fun a ha => h a (hx a ha)

theorem bind {x : Except ε α} (hx : Ensures p x) (h : ∀ a, p a → Ensures q (f a)) : Ensures q (x >>= f) := by
  intro b hb
  obtain ⟨a, ha, hb⟩ := bind_eq_ok.1 hb
  exact h a (hx a ha) b hb

theorem pure_bind (h : Ensures q (f a)) : Ensures q (pure a >>= f) := h

theorem skip {x : Except ε α} (h : ∀ a, Ensures q (f a)) : Ensures q (x >>= f) :=
  bind (p := fun _ => True) (fun _ _ => trivial) fun a _ => h a

theorem within {place : Place} {x : Except Fault α} (h : Ensures p x) : Ensures p (within place x) :=
  fun a ha => h a (within_eq_ok.1 ha)

theorem mapM {r : α → Prop} (h : ∀ x ∈ xs, Ensures (fun y => q y ∧ r x) (f x)) :
    Ensures (fun ys => (∀ y ∈ ys, q y) ∧ ∀ x ∈ xs, r x) (xs.mapM f) := by
  intro ys hys
  have hxy := mapM_eq_ok_iff.1 hys
  constructor
  · intro y hy
    obtain ⟨x, hx, hf⟩ := exists_of_mem_right hxy hy
    exact (h x hx y hf).1
  · intro x hx
    obtain ⟨y, hy, hf⟩ := exists_of_mem_mapM hys hx
    exact (h x hx y hf).2

theorem mapM_right {r : α → Prop} (h : ∀ x ∈ xs, Ensures (fun _ => r x) (f x)) :
    Ensures (fun _ => ∀ x ∈ xs, r x) (xs.mapM f) :=
  (mapM (q := fun _ => True) fun x hx => (h x hx).imp fun _ hr => ⟨trivial, hr⟩).imp fun _ h => h.2

end Ensures

end ClassDoc
