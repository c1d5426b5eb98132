/-
  Computations that put entries, by what later pools keep.

  What was put once is found at its index ever after, so a computation that succeeded gives the same result in each later
  pool and puts nothing new. This holds of all pools, also of those that no class has.
-/
import ClassDoc.Proofs.Pool.Invariant
namespace ClassDoc

open List

/-- The pool `q` gives all that `p` has the same indices. -/
structure Pool.Keeps (p q : Pool) : Prop where
  entry : ∀ (e : PoolEntry) i, p.indices[e]? = some i → q.indices[e]? = some i
  method : ∀ (m : BootstrapMethod) i, p.methodIndices[m]? = some i → q.methodIndices[m]? = some i

theorem Pool.Keeps.refl (p : Pool) : p.Keeps p := ⟨fun _ _ h => h, fun _ _ h => h⟩

theorem Pool.Keeps.trans {p q r : Pool} (h : p.Keeps q) (h' : q.Keeps r) : p.Keeps r :=
  ⟨fun e i he => h'.entry e i (h.entry e i he), fun m i hm => h'.method m i (h.method m i hm)⟩

/-- The pool `q` is `p` or has more than it. -/
structure Pool.GrowsTo (p q : Pool) : Prop extends p.Keeps q where
  tables : p.Tables → q.Tables ∧ p ≤ q

theorem Pool.GrowsTo.refl (p : Pool) : p.GrowsTo p := ⟨.refl p, fun hp => ⟨hp, le_rfl⟩⟩

theorem Pool.GrowsTo.trans {p q r : Pool} (h : p.GrowsTo q) (h' : q.GrowsTo r) : p.GrowsTo r where
  toKeeps := h.toKeeps.trans h'.toKeeps
  tables hp :=
    have hq := h.tables hp
    (h'.tables hq.1).imp_right hq.2.trans

/-- `x` only adds to a pool, and `Q` holds where that is kept. -/
def Grows {α : Type} (x : PoolM α) (Q : Pool → α → Prop) : Prop :=
  ∀ ⦃p a q⦄, x p = .ok a q → p.GrowsTo q ∧ ∀ r, q.Keeps r → Q r a

/-- In a larger pool `x` gives the same again. -/
def Repeats {α : Type} (x : PoolM α) : Prop := Grows x fun r a => x r = .ok a r

namespace Grows

variable {α β : Type} {x : PoolM α} {Q R : Pool → α → Prop} {S : Pool → β → Prop} {f : α → PoolM β}

theorem mono (h : Grows x Q) (hQ : ∀ r a, Q r a → R r a) : Grows x R :=
  fun _ _ _ hx => (h hx).imp_right fun hq r hr => hQ r _ (hq r hr)

theorem pure {a : α} (h : ∀ r, Q r a) : Grows (Pure.pure a) Q := by
  intro p b q hx
  cases hx
  exact ⟨.refl p, fun r _ => h r⟩

theorem throw (f : Fault) : Grows (throw f) Q := by
  intro _ _ _ hx
  cases hx

theorem lift (x : Except Fault α) : Grows (liftM x) fun _ a => x = .ok a := by
  intro p a q h
  obtain ⟨ha, rfl⟩ := run_lift_eq_ok.1 h
  exact ⟨.refl p, fun _ _ => ha⟩

theorem bind (hx : Grows x Q) (hf : ∀ a, Grows (f a) fun r b => Q r a → S r b) : Grows (x >>= f) S := by
  intro p b q h
  obtain ⟨a, r, ha, hb⟩ := run_bind_eq_ok.1 h
  obtain ⟨hk, hq⟩ := hx ha
  obtain ⟨hk', hs⟩ := hf a hb
  exact ⟨hk.trans hk', fun u hu => hs u hu (hq u (hk'.toKeeps.trans hu))⟩

theorem map {g : α → β} (hx : Grows x Q) (hg : ∀ r a, Q r a → S r (g a)) :
    Grows (x >>= fun a => Pure.pure (g a)) S :=
  hx.bind fun a => pure fun r => hg r a

theorem inPlace (place : Place) (h : Grows x Q) : Grows (ClassDoc.inPlace place x) Q :=
  fun _ _ _ hx => h (inPlace_eq_ok.1 hx)

theorem mapM {S : α → Pool → β → Prop} {xs : List α} (h : ∀ a ∈ xs, Grows (f a) (S a)) :
    Grows (xs.mapM f) fun r bs => Forall₂ (fun a b => S a r b) xs bs := by
  induction xs with
  | nil => exact pure fun _ => .nil
  | cons a xs ih =>
    rw [mapM_cons]
    exact (h a (by simp)).bind fun b => (ih fun a' ha' => h a' (by simp [ha'])).map fun _ _ hbs hb => .cons hb hbs

end Grows

/-! ## Entries and constants -/

namespace Repeats

variable {α β : Type} {x : PoolM α} {f : α → PoolM β}

theorem pure (a : α) : Repeats (Pure.pure a) := Grows.pure fun _ => rfl

theorem bind (hx : Repeats x) (hf : ∀ a, Repeats (f a)) : Repeats (x >>= f) :=
  Grows.bind hx fun a => (hf a).mono fun r _ hb ha => run_bind_eq_ok.2 ⟨a, r, ha, hb⟩

theorem put (e : PoolEntry) : Repeats (Pool.put e) := by
  intro p i q h
  have hfound : ∀ r : Pool, r.indices[e]? = some i → Pool.put e r = .ok i r := fun r hr =>
    Pool.put_eq_ok_iff.2 (.inl ⟨hr, rfl⟩)
  rcases Pool.put_eq_ok_iff.1 h with ⟨hi, rfl⟩ | ⟨hn, hc, rfl, rfl⟩
  · exact ⟨.refl q, fun r hr => hfound r (hr.entry e i hi)⟩
  · refine ⟨⟨⟨fun e' i' h' => ?_, fun _ _ h' => h'⟩, fun hp => ⟨hp.add hn hc, Pool.le_add p e⟩⟩, fun r hr =>
      hfound r (hr.entry e _ (by simp [Pool.add]))⟩
    rw [Pool.add, Std.HashMap.getElem?_insert, if_neg fun he => ?_, h']
    rw [eq_of_beq he, h'] at hn
    cases hn

theorem putMethod (m : BootstrapMethod) : Repeats (Pool.putMethod m) := by
  intro p i q h
  have hfound : ∀ r : Pool, r.methodIndices[m]? = some i → Pool.putMethod m r = .ok i r := fun r hr =>
    Pool.putMethod_eq_ok_iff.2 (.inl ⟨hr, rfl⟩)
  rcases Pool.putMethod_eq_ok_iff.1 h with ⟨hi, rfl⟩ | ⟨hn, hc, rfl, rfl⟩
  · exact ⟨.refl q, fun r hr => hfound r (hr.method m i hi)⟩
  · refine ⟨⟨⟨fun _ _ h' => h', fun m' i' h' => ?_⟩, fun hp => ⟨hp.addMethod hn hc, Pool.le_addMethod p m⟩⟩, fun r hr =>
      hfound r (hr.method m _ (by simp [Pool.addMethod]))⟩
    rw [Pool.addMethod, Std.HashMap.getElem?_insert, if_neg fun he => ?_, h']
    rw [eq_of_beq he, h'] at hn
    cases hn

theorem classRef (name : String) : Repeats (Pool.classRef name) := bind (put _) fun _ => put _

theorem nameAndType (name descriptor : String) : Repeats (Pool.nameAndType name descriptor) :=
  bind (put _) fun _ => bind (put _) fun _ => put _

theorem fieldRef (owner name descriptor : String) : Repeats (Pool.fieldRef owner name descriptor) :=
  bind (classRef _) fun _ => bind (nameAndType _ _) fun _ => put _

theorem methodRef (owner name descriptor : String) (interface : Bool) :
    Repeats (Pool.methodRef owner name descriptor interface) :=
  bind (classRef _) fun _ => bind (nameAndType _ _) fun _ => put _

theorem methodHandle (h : Handle) : Repeats (Pool.methodHandle h) := by
  unfold Pool.methodHandle
  split
  · exact bind (fieldRef _ _ _) fun _ => put _
  · exact bind (methodRef _ _ _ _) fun _ => put _

mutual

theorem constant : (c : Constant) → Repeats (Pool.constant c)
  | .integer _ | .float _ | .long _ | .double _ => put _
  | .string _ | .methodType _ => bind (put _) fun _ => put _
  | .classRef name => classRef name
  | .methodHandle h => methodHandle h
  | .dynamic _ _ _ arguments => bind (nameAndType _ _) fun _ => bind (methodHandle _) fun _ =>
    bind (constants arguments) fun _ => bind (putMethod _) fun _ => put _

theorem constants : (cs : List Constant) → Repeats (Pool.constants cs)
  | [] => pure _
  | c :: rest => bind (constant c) fun _ => bind (constants rest) fun _ => pure _

end

theorem invokeDynamic (name descriptor : String) (bootstrap : Handle) (arguments : List Constant) :
    Repeats (Pool.invokeDynamic name descriptor bootstrap arguments) :=
  bind (nameAndType _ _) fun _ => bind (methodHandle _) fun _ => bind (constants arguments) fun _ =>
    bind (putMethod _) fun _ => put _

end Repeats

end ClassDoc
