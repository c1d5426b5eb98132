/-
  Loadable constants by what their entries refer to, and dynamic constants that refer to themselves.
-/
import ClassDoc.Proofs.Pool.ReadBack
namespace ClassDoc

open List

theorem Constant.depthAll_le {cs : List Constant} {n : Nat} : Constant.depthAll cs ≤ n ↔ ∀ c ∈ cs, c.depth ≤ n := by
  induction cs with
  | nil => simp [Constant.depthAll]
  | cons c cs ih => rw [Constant.depthAll, max_le_iff, forall_mem_cons, ih]

namespace PoolView

/-- The constant that the entry at an index stands for, however deep it is. All that it refers to is there. -/
inductive Unfolds (V : PoolView) : UInt16 → Constant → Prop
  | integer {index : UInt16} {v : Int32} (h : V.entry index = .ok (.integer v)) : Unfolds V index (.integer v)
  | float {index : UInt16} {v : Single} (h : V.entry index = .ok (.float v)) : Unfolds V index (.float v)
  | long {index : UInt16} {v : Int64} (h : V.entry index = .ok (.long v)) : Unfolds V index (.long v)
  | double {index : UInt16} {v : Double} (h : V.entry index = .ok (.double v)) : Unfolds V index (.double v)
  | classRef {index i : UInt16} {name : String} (h : V.entry index = .ok (.classRef i)) (hn : V.utf8 i = .ok name) :
    Unfolds V index (.classRef name)
  | string {index i : UInt16} {t : JavaText} (h : V.entry index = .ok (.string i)) (ht : V.text i = .ok t) :
    Unfolds V index (.string t)
  | methodType {index i : UInt16} {text : String} (h : V.entry index = .ok (.methodType i)) (ht : V.utf8 i = .ok text) :
    Unfolds V index (.methodType text)
  | methodHandle {index : UInt16} {handle : Handle} (h : V.methodHandle index = .ok handle) :
    Unfolds V index (.methodHandle handle)
  | dynamic {index method member : UInt16} {name descriptor : String} {handle : Handle} {is : List UInt16}
      {cs : List Constant} (h : V.entry index = .ok (.dynamic method member))
      (hm : V.nameAndType member = .ok (name, descriptor)) (hb : V.methods[method.toNat]? = some (handle, is))
      (hl : is.length = cs.length) (hc : ∀ i c, (i, c) ∈ is.zip cs → Unfolds V i c) :
    Unfolds V index (.dynamic name descriptor handle cs)

/-- A dynamic constant and an argument of its bootstrap method. -/
def Refers (V : PoolView) (index argument : UInt16) : Prop :=
  ∃ method member handle is, V.entry index = .ok (.dynamic method member) ∧
    V.methods[method.toNat]? = some (handle, is) ∧ argument ∈ is

variable {V : PoolView} {index : UInt16} {level : Nat} {c : Constant}

theorem exists_of_bootstrapAt {method : UInt16} {handle : Handle} {cs : List Constant}
    (h : V.bootstrapAt (level + 1) method = .ok (handle, cs)) : ∃ is, V.methods[method.toNat]? = some (handle, is) ∧
      Forall₂ (fun i c => V.loadable (V.bootstrapAt level) i = .ok c) is cs := by
  rw [bootstrapAt] at h
  split at h
  next => cases h
  next _ is hm =>
    obtain ⟨_, hcs, h⟩ := bind_eq_ok.1 h
    cases h
    exact ⟨is, hm, (mapM_eq_ok_iff.1 hcs).imp fun _ _ => within_eq_ok.1⟩

theorem unfolds_of_loadable (h : V.loadable (V.bootstrapAt level) index = .ok c) : V.Unfolds index c ∧ c.depth ≤ level := by
  induction level using Nat.strongRec generalizing index c with
  | ind level ih =>
  obtain ⟨entry, he, h⟩ := bind_eq_ok.1 h
  cases entry with
  | dynamic method member =>
    obtain ⟨⟨name, descriptor⟩, hm, h⟩ := bind_eq_ok.1 h
    obtain ⟨⟨handle, cs⟩, hb, h⟩ := bind_eq_ok.1 h
    cases h
    cases level with
    | zero => cases hb
    | succ level =>
      obtain ⟨is, hmethod, hcs⟩ := exists_of_bootstrapAt hb
      have hf : Forall₂ (fun i c => V.Unfolds i c ∧ c.depth ≤ level) is cs := hcs.imp fun _ _ =>
          ih level (Nat.lt_succ_self _)
      obtain ⟨hl, hz⟩ := forall₂_iff_zip.1 hf
      refine ⟨.dynamic he hm hmethod hl fun i c h => (hz h).1, ?_⟩
      rw [Constant.depth]
      refine Nat.succ_le_succ (Constant.depthAll_le.2 fun c hc => ?_)
      obtain ⟨_, -, h⟩ := exists_of_mem_right hf hc
      exact h.2
  | classRef | string | methodType =>
    obtain ⟨_, ht, h⟩ := bind_eq_ok.1 h
    cases h
    exact ⟨by constructor <;> assumption, by simp [Constant.depth]⟩
  | methodHandle =>
    obtain ⟨_, ht, h⟩ := bind_eq_ok.1 h
    cases h
    exact ⟨.methodHandle ht, by simp [Constant.depth]⟩
  | integer | float | long | double =>
    cases h
    exact ⟨by constructor; assumption, by simp [Constant.depth]⟩
  | _ => cases h

theorem depthAll_of_bootstrap {method : UInt16} {x : Handle × List Constant} (h : V.bootstrap method = .ok x) :
    Constant.depthAll x.2 ≤ maxDepth := by
  obtain ⟨_, -, hf⟩ := exists_of_bootstrapAt h
  refine Constant.depthAll_le.2 fun c hc => ?_
  obtain ⟨_, -, h⟩ := exists_of_mem_right hf hc
  exact (unfolds_of_loadable h).2

theorem loadable_of_unfolds (h : V.Unfolds index c) (hd : c.depth ≤ level) :
    V.loadable (V.bootstrapAt level) index = .ok c := by
  induction h generalizing level with
  | @dynamic index method member name descriptor handle is cs he hm hb hl _ ih =>
    rw [Constant.depth] at hd
    obtain ⟨level, rfl⟩ := Nat.exists_eq_add_of_le' (Nat.le_trans (Nat.le_add_left 1 _) hd)
    have hf : Forall₂ (fun i c => V.loadable (V.bootstrapAt level) i = .ok c) is cs := by
      refine forall₂_iff_zip.2 ⟨hl, fun {i c} hz => ih i c hz (Constant.depthAll_le.1 (by omega) c (of_mem_zip hz).2)⟩
    simp [loadable, he, hm, bootstrapAt_succ_eq_ok hb hf]
  | @methodHandle index handle h =>
    obtain ⟨entry, he, h'⟩ := bind_eq_ok.1 h
    cases entry with
    | methodHandle => simp [loadable, he, h]
    | _ => cases h'
  | integer h | float h | long h | double h => simp [loadable, h]
  | classRef h ht | string h ht | methodType h ht => simp [loadable, h, ht]

theorem Unfolds.argument {j : UInt16} (h : V.Unfolds index c) (hr : V.Refers index j) :
    ∃ d, V.Unfolds j d ∧ d.depth < c.depth := by
  obtain ⟨method, member, handle, is, he, hb, hj⟩ := hr
  cases h with
  | @dynamic _ _ _ _ _ _ is' cs he' _ hb' hl hc =>
    cases he.symm.trans he'
    cases hb.symm.trans hb'
    obtain ⟨d, hd, hu⟩ := exists_of_mem_right (forall₂_iff_zip.2 ⟨hl, fun {i c} => hc i c⟩).flip hj
    rw [Constant.depth]
    exact ⟨d, hu, Nat.lt_succ_of_le (Constant.depthAll_le.1 le_rfl d hd)⟩
  | methodHandle h =>
    rw [PoolView.methodHandle, he] at h
    cases h
  | integer h | float h | long h | double h | classRef h | string h | methodType h => cases he.symm.trans h

theorem Unfolds.reached {j : UInt16} (h : V.Unfolds index c) (hr : Relation.ReflTransGen V.Refers index j) :
    ∃ d, V.Unfolds j d ∧ d.depth ≤ c.depth := by
  induction hr with
  | refl => exact ⟨c, h, le_rfl⟩
  | tail _ hr ih =>
    obtain ⟨d, hd, hle⟩ := ih
    obtain ⟨e, he, hlt⟩ := hd.argument hr
    exact ⟨e, he, hlt.le.trans hle⟩

theorem not_unfolds_of_cycle (hr : Relation.TransGen V.Refers index index) : ¬V.Unfolds index c := by
  obtain ⟨j, hj, hr⟩ := Relation.TransGen.head'_iff.1 hr
  intro h
  obtain ⟨n, hn⟩ : ∃ n, c.depth = n := ⟨_, rfl⟩
  -- each round gives a constant at the same index that is nested less deep
  induction n using Nat.strongRec generalizing c with
  | ind n ih =>
    obtain ⟨d, hd, hlt⟩ := h.argument hj
    obtain ⟨e, he, hle⟩ := hd.reached hr
    exact ih e.depth (by omega) he rfl

/-- **Circular dynamic constants are rejected.** In any pool, the constant at an index is the one that the entry stands
for, exactly if it does and no more bootstrap methods are nested than the limit allows. If dynamic constants that refer to
each other in a circle can be reached, it is an error. -/
theorem constant_eq_ok_iff (V : PoolView) (index : UInt16) :
    (∀ c, V.constant index = .ok c ↔ V.Unfolds index c ∧ c.depth ≤ maxDepth + 1) ∧
    ∀ j, Relation.ReflTransGen V.Refers index j → Relation.TransGen V.Refers j j → ∃ f, V.constant index = .error f := by
  refine ⟨fun c => ⟨unfolds_of_loadable, fun h => loadable_of_unfolds h.1 h.2⟩, fun j hj hc => ?_⟩
  cases h : V.constant index with
  | error f => exact ⟨f, rfl⟩
  | ok c =>
    obtain ⟨d, hd, -⟩ := (unfolds_of_loadable h).1.reached hj
    exact absurd hd (not_unfolds_of_cycle hc)

/-- A pool with a dynamic constant that is an argument of its own bootstrap method. -/
def circular : PoolView :=
  ⟨#[none, some (.dynamic 0 2), some (.nameAndType 3 3), some (.utf8 (.ofString "I"))], [(⟨6, "A", "m", "()I", false⟩, [1])]⟩

theorem constant_circular : circular.Refers 1 1 ∧ ∃ f, circular.constant 1 = .error f := by
  have h : circular.Refers 1 1 := ⟨0, 2, _, _, rfl, rfl, by simp⟩
  exact ⟨h, (constant_eq_ok_iff circular 1).2 1 .refl (.single h)⟩

end PoolView

end ClassDoc
