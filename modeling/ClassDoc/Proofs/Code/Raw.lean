/-
  The labels of code with positions.
-/
import ClassDoc.Proofs.Fault
import ClassDoc.Code.Raw
namespace ClassDoc.RawCode

/-! ## Positions with a label -/

variable {o : UInt16} {l : List UInt16}

@[simp] theorem mem_dropRepeats {a : UInt16} : a ∈ dropRepeats l ↔ a ∈ l := by
  fun_induction dropRepeats l with
  | case1 b rest ih => simpa using ih
  | case2 b c rest _ ih => rw [List.mem_cons, ih, ← List.mem_cons]
  | case3 => rfl

theorem pairwise_dropRepeats (h : l.Pairwise (· ≤ ·)) : (dropRepeats l).Pairwise (· < ·) := by
  fun_induction dropRepeats l with
  | case1 b rest ih => exact ih h.of_cons
  | case2 b c rest hne ih =>
    have hbc : b < c := UInt16.lt_of_le_of_ne ((List.pairwise_cons.1 h).1 c (by simp)) hne
    refine .cons (fun d hd => ?_) (ih h.of_cons)
    rw [mem_dropRepeats] at hd
    rcases List.mem_cons.1 hd with rfl | hd
    · exact hbc
    · exact UInt16.lt_of_lt_of_le hbc ((List.pairwise_cons.1 h.of_cons).1 d hd)
  | case3 l hl =>
    cases l with
    | nil => exact .nil
    | cons b rest =>
      cases rest with
      | nil => exact List.pairwise_singleton _ _
      | cons c rest => exact absurd rfl (hl b c rest)

variable (code : RawCode)

@[simp] theorem mem_labelOffsets : o ∈ code.labelOffsets ↔ o ∈ code.references := by
  rw [labelOffsets, mem_dropRepeats, List.mem_mergeSort]

theorem pairwise_labelOffsets : code.labelOffsets.Pairwise (· < ·) := by
  refine pairwise_dropRepeats ?_
  have htrans : ∀ a b c : UInt16, decide (a ≤ b) = true → decide (b ≤ c) = true → decide (a ≤ c) = true := by
    simpa using fun a b c => UInt16.le_trans
  have htotal : ∀ a b : UInt16, (decide (a ≤ b) || decide (b ≤ a)) = true := by
    simpa using fun a b => UInt16.le_total a b
  simpa using List.pairwise_mergeSort htrans htotal code.references

/-! ## Labels -/

theorem getElem?_foldl_insert {α κ β : Type} [BEq κ] [Hashable κ] [LawfulBEq κ] (k : α → κ) (v : α → β) (xs : List α)
    (o : κ) : (xs.foldl (fun (m : Std.HashMap κ β) x => m.insert (k x) (v x)) {})[o]?
      = (xs.reverse.find? fun x => k x == o).map v := by
  induction xs using List.reverseRecOn with
  | nil => simp
  | append_singleton xs x ih =>
    rw [List.foldl_concat, Std.HashMap.getElem?_insert, ih, List.reverse_concat, List.find?_cons]
    cases k x == o <;> rfl

theorem getElem?_labels {l : Label} :
    code.labels[o]? = some l ↔ ∃ i, code.labelOffsets[i]? = some o ∧ l = ⟨UInt32.ofNat i⟩ := by
  have h := getElem?_foldl_insert (fun x : UInt16 × Nat => x.1) (fun x => (⟨UInt32.ofNat x.2⟩ : Label))
    code.labelOffsets.zipIdx o
  have hn : code.labelOffsets.Nodup := code.pairwise_labelOffsets.imp fun h => UInt16.ne_of_lt h
  have hfind : ∀ x, code.labelOffsets.zipIdx.reverse.find? (fun x => x.1 == o) = some x →
      code.labelOffsets[x.2]? = some o := by
    rintro ⟨o', i⟩ hf
    obtain rfl : o' = o := by simpa using List.find?_some hf
    simpa [List.mk_mem_zipIdx_iff_getElem?] using List.mem_of_find?_eq_some hf
  rw [labels, h]
  constructor
  · intro hl
    obtain ⟨x, hx, rfl⟩ := Option.map_eq_some_iff.1 hl
    exact ⟨x.2, hfind x hx, rfl⟩
  · rintro ⟨i, hi, rfl⟩
    have hm : (o, i) ∈ code.labelOffsets.zipIdx.reverse := by simpa [List.mk_mem_zipIdx_iff_getElem?] using hi
    have hs : (code.labelOffsets.zipIdx.reverse.find? fun x => x.1 == o).isSome = true :=
      List.find?_isSome.2 ⟨(o, i), hm, beq_self_eq_true o⟩
    obtain ⟨x, hx⟩ := Option.isSome_iff_exists.1 hs
    have hi' : i < code.labelOffsets.length := (List.getElem?_eq_some_iff.1 hi).1
    rw [hx, (List.getElem?_inj hi' hn).1 (hi.trans (hfind x hx).symm)]
    rfl

/-! ## Where labels and frames stand -/

theorem contains_starts : code.starts.contains o = true ↔ o ∈ code.insns.map Prod.fst := by
  suffices h : ∀ (is : List (UInt16 × Insn UInt16)) (s : Std.HashSet UInt16),
      (is.foldl (fun starts i => starts.insert i.1) s).contains o = true ↔ o ∈ is.map Prod.fst ∨ s.contains o = true by
    rw [starts, h]
    simp
  intro is
  induction is with
  | nil => simp
  | cons i is ih =>
    intro s
    rw [List.foldl_cons, ih]
    simp only [Std.HashSet.contains_insert, List.map_cons, List.mem_cons, Bool.or_eq_true, beq_iff_eq]
    tauto

theorem check_eq_ok (hl : ∀ o ∈ code.references, o ∈ code.insns.map Prod.fst ∨ o = code.length)
    (hf : ∀ f ∈ code.frames, f.1 ∈ code.insns.map Prod.fst) : code.check = .ok () := by
  have hlabel : code.labelOffsets.find? (fun o => !code.starts.contains o && o != code.length) = none := by
    rw [List.find?_eq_none]
    intro o ho
    rcases hl o (code.mem_labelOffsets.1 ho) with h | h
    · simp [(code.contains_starts).2 h]
    · simp [h]
  have hframe : code.frames.find? (fun f => !code.starts.contains f.1) = none := by
    rw [List.find?_eq_none]
    intro f hfm
    simp [(code.contains_starts).2 (hf f hfm)]
  simp only [check, hlabel, hframe]

end ClassDoc.RawCode
