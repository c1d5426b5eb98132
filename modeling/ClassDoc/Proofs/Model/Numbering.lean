/-
  Numbering labels.
-/
import ClassDoc.Proofs.Code.Relabel
namespace ClassDoc

open List

namespace Label

def renumber (mentions : List Label) (l : Label) : Label := ⟨UInt32.ofNat (mentions.eraseDups.idxOf l)⟩

variable {ls : List Label} {l : Label}

theorem renumber_append (h : l ∈ ls) (more : List Label) : renumber (ls ++ more) l = renumber ls l := by
  rw [renumber, eraseDups_append, idxOf_append_of_mem (mem_eraseDups.2 h), renumber]

theorem length_le_of_nodup (h : ls.Nodup) : ls.length ≤ 2 ^ 32 := by
  have hn : (ls.map fun l => l.id.toNat).Nodup := by
    refine h.map_on fun a _ b _ hab => ?_
    obtain ⟨⟨a⟩⟩ := a
    obtain ⟨⟨b⟩⟩ := b
    simpa [BitVec.toNat_inj] using hab
  have hs : ls.map (fun l => l.id.toNat) ⊆ List.range (2 ^ 32) := by
    intro n hn
    obtain ⟨l, -, rfl⟩ := mem_map.1 hn
    exact mem_range.2 l.id.toNat_lt
  simpa using (hn.subperm hs).length_le

theorem nodup_eraseDups : (ls : List Label) → ls.eraseDups.Nodup
  | [] => by simp
  | l :: ls => by
    rw [eraseDups_cons, nodup_cons, mem_eraseDups]
    exact ⟨by simp, nodup_eraseDups _⟩
termination_by ls => ls.length
decreasing_by
  have := length_filter_le (fun b => !b == l) ls
  simp only [length_cons]
  omega

theorem renumber_inj {k : Label} (hl : l ∈ ls) (hk : k ∈ ls) (h : renumber ls l = renumber ls k) : l = k := by
  have hlt : ∀ a ∈ ls, ls.eraseDups.idxOf a < 2 ^ 32 := fun a ha =>
    (idxOf_lt_length_iff.2 (mem_eraseDups.2 ha)).trans_le (length_le_of_nodup (nodup_eraseDups ls))
  have hi := congrArg (fun l => l.id.toNat) h
  simp only [renumber, UInt32.toNat_ofNat', Nat.mod_eq_of_lt (hlt _ hl), Nat.mod_eq_of_lt (hlt _ hk)] at hi
  exact (idxOf_inj (mem_eraseDups.2 hl)).1 hi

/-! ## Numberings -/

namespace Numbering

variable {n : Numbering}

/-- The labels were met in this order. -/
structure Met (n : Numbering) (ls : List Label) : Prop where
  next : n.next = UInt32.ofNat ls.eraseDups.length
  ids : ∀ l, n.ids[l]? = if l ∈ ls then some (renumber ls l) else none

theorem met_empty : Met {} [] where
  next := rfl
  ids l := by simp

theorem get_met (h : Met n ls) (hl : l ∈ ls) : get l n = (renumber ls l, n) := by
  rw [get, h.ids, if_pos hl]

theorem get_new (h : Met n ls) (hl : l ∉ ls) :
    (get l n).1 = renumber (ls ++ [l]) l ∧ Met (get l n).2 (ls ++ [l]) := by
  have hd : (ls ++ [l]).eraseDups = ls.eraseDups ++ [l] := by
    simp [eraseDups_append, List.removeAll, eraseDups_cons, hl]
  have hr : renumber (ls ++ [l]) l = ⟨n.next⟩ := by
    have hl' : l ∉ ls.eraseDups := mt mem_eraseDups.1 hl
    simp [renumber, hd, h.next, idxOf_append, hl']
  rw [get, h.ids, if_neg hl]
  refine ⟨hr.symm, ⟨?_, fun k => ?_⟩⟩
  · simp [hd, h.next, UInt32.ofNat_add]
  · rw [Std.HashMap.getElem?_insert, h.ids, ← hr]
    by_cases hk : l = k
    · simp [← hk]
    · by_cases hkm : k ∈ ls
      · simp [hk, hkm, renumber_append hkm]
      · simp [hk, hkm, Ne.symm hk]

end Numbering

end Label

/-! ## Computations that number -/

open Label

/-- `x` numbers the labels, and gives `f` of it. -/
def Numbers {α : Type} (x : StateM Numbering α) (labels : List Label) (f : (Label → Label) → α) : Prop :=
  ∀ n ls, Numbering.Met n ls → Numbering.Met (x n).2 (ls ++ labels) ∧
    ∀ g : Label → Label, (∀ l ∈ ls ++ labels, g l = renumber (ls ++ labels) l) → (x n).1 = f g

namespace Numbers

variable {α β : Type} {x : StateM Numbering α} {labels labels' : List Label} {f : (Label → Label) → α}

theorem pure (a : α) : Numbers (Pure.pure a) [] fun _ => a := fun n ls h =>
  ⟨by rw [append_nil]; exact h, fun _ _ => rfl⟩

theorem get (l : Label) : Numbers (Numbering.get l) [l] fun g => g l := by
  intro n ls h
  by_cases hl : l ∈ ls
  · rw [Numbering.get_met h hl]
    have hd : (ls ++ [l]).eraseDups = ls.eraseDups := by simp [eraseDups_append, List.removeAll, hl]
    have hr : renumber (ls ++ [l]) = renumber ls := funext fun k => by rw [renumber, hd, renumber]
    refine ⟨⟨by rw [hd, h.next], fun k => ?_⟩, fun g hg => ?_⟩
    · rw [h.ids, hr]
      by_cases hk : k ∈ ls
      · simp [hk]
      · have hkl : k ≠ l := fun e => hk (e ▸ hl)
        simp [hk, hkl]
    · exact (congrFun hr l ▸ hg l (by simp)).symm
  · obtain ⟨h1, h2⟩ := Numbering.get_new h hl
    exact ⟨h2, fun g hg => h1.trans (hg l (by simp)).symm⟩

theorem bind {k : α → StateM Numbering β} {e : α → (Label → Label) → β} (hx : Numbers x labels f)
    (hk : ∀ a, Numbers (k a) labels' (e a)) : Numbers (x >>= k) (labels ++ labels') fun g => e (f g) g := by
  intro n ls h
  obtain ⟨h1, h2⟩ := hx n ls h
  obtain ⟨h3, h4⟩ := hk (x n).1 (x n).2 _ h1
  rw [append_assoc] at h3 h4
  refine ⟨h3, fun g hg => ?_⟩
  have hf : (x n).1 = f g := h2 g fun l hl => by
    rw [← append_assoc] at hg
    rw [hg l (by simp only [mem_append] at hl ⊢; exact .inl hl), renumber_append hl]
  have hb : ((x >>= k) n).1 = e (x n).1 g := h4 g hg
  rw [hb, hf]

theorem map {h : α → β} (hx : Numbers x labels f) : Numbers (x >>= fun a => Pure.pure (h a)) labels fun g => h (f g) := by
  simpa using hx.bind fun a => pure (h a)

theorem mapM {x : α → StateM Numbering β} {labels : α → List Label} {f : α → (Label → Label) → β} (xs : List α)
    (h : ∀ a, Numbers (x a) (labels a) (f a)) : Numbers (xs.mapM x) (xs.flatMap labels) fun g => xs.map (f · g) := by
  induction xs with
  | nil => exact pure []
  | cons a xs ih =>
    rw [mapM_cons, flatMap_cons]
    exact (h a).bind fun b => ih.map

end Numbers

theorem numbers_insn (i : Insn Label) : Numbers (i.mapLabels Numbering.get) i.targets fun g => i.map g := by
  cases i with
  | jump op l => exact (Numbers.get l).map
  | tableSwitch low high d ts =>
    simp only [Insn.map_tableSwitch, Insn.targets]
    have ht : Numbers (ts.mapM Numbering.get) (ts.flatMap fun l => [l]) fun g => ts.map g := .mapM ts Numbers.get
    rw [flatMap_singleton'] at ht
    exact (Numbers.get d).bind fun d => ht.map
  | lookupSwitch d ps =>
    simp only [Insn.map_lookupSwitch, Insn.targets]
    have ht : Numbers (ps.mapM fun p => do return (p.1, ← Numbering.get p.2)) (ps.flatMap fun p => [p.2])
        fun g => ps.map fun p => (p.1, g p.2) := .mapM ps fun p => (Numbers.get p.2).map
    rw [← map_eq_flatMap] at ht
    exact (Numbers.get d).bind fun d => ht.map
  | _ => exact Numbers.pure _

theorem numbers_frame (f : Frame Label) : Numbers (f.mapLabels Numbering.get) f.labels fun g => f.map g := by
  have ht : ∀ t : VerificationType Label, Numbers (t.mapLabels Numbering.get) t.labels fun g => t.map g := by
    intro t
    cases t with
    | uninitialized l => exact (Numbers.get l).map
    | _ => exact Numbers.pure _
  exact (Numbers.mapM f.locals ht).bind fun locals => (Numbers.mapM f.stack ht).map

theorem numbers_target (t : TypeTarget Label) : Numbers (t.mapLabels Numbering.get) t.labels fun g => t.map g := by
  cases t with
  | localVariable rs =>
    have hr : ∀ r : LocalRange Label, Numbers (do
        let start ← Numbering.get r.start
        let stop ← Numbering.get r.stop
        return (⟨start, stop, r.index⟩ : LocalRange Label)) [r.start, r.stop]
          fun g => ⟨g r.start, g r.stop, r.index⟩ := fun r =>
      (Numbers.get r.start).bind fun start => (Numbers.get r.stop).map
    exact (Numbers.mapM rs hr).map
  | offset l => exact (Numbers.get l).map
  | typeArgument l n => exact (Numbers.get l).map
  | _ => exact Numbers.pure _

theorem numbers_typeAnnotated (a : TypeAnnotation Label) :
    Numbers (a.mapLabels Numbering.get) a.target.labels fun g => a.map g :=
  (numbers_target a.target).map

end ClassDoc
