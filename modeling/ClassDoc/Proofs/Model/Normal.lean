/-
  The normal form of a class follows the rules.
-/
import ClassDoc.Proofs.Model.Replay
namespace ClassDoc

open List

/-! ## Other labels -/

theorem Frame.wellFormed_map {L M : Type} (f : L → M) (frame : Frame L) : (frame.map f).wellFormed = frame.wellFormed := by
  obtain ⟨kind, locals, stack⟩ := frame
  cases kind <;> simp [wellFormed, map]

theorem MethodEntry.Valid.relabel {entry : MethodEntry} (h : entry.Valid) (f : Label → Label) : (entry.relabel f).Valid := by
  cases entry with
  | instruction i =>
    obtain ⟨insn, hi⟩ := h
    obtain ⟨rfl, hw⟩ := Instruction.toInsn_eq_ok_iff.1 hi
    exact ⟨insn.map f, Instruction.toInsn_eq_ok_iff.2 ⟨Instruction.relabel_ofInsn f insn, Insn.wellFormed_map.2 hw⟩⟩
  | frame frame => exact (Frame.wellFormed_map f frame).trans h
  | label | tryCatch | line => trivial

namespace Model

theorem TypeAnnotation.validate_relabel {allowed : UInt8 → Bool} {a : TypeAnnotation} (f : Label → Label) :
    TypeAnnotation.validate allowed (a.relabel f) = .ok () ↔ TypeAnnotation.validate allowed a = .ok () := by
  rw [validate_iff, validate_iff, relabel, TypeTarget.fits_map]

namespace Method

variable {m : Method} {arguments : List String} {result : String} {a : TypeAnnotation} {q : Parameter} {n : Nat}

theorem checkCatch_eq_ok : checkCatch n a = .ok () ↔ ∀ index, a.target = .catch index → index.toNat < n := by
  unfold checkCatch
  split
  next index h => simp [h, ensure_eq_ok]
  next h => exact iff_of_true rfl fun index hi => absurd hi (h index)

theorem checkCatch_relabel (f : Label → Label) : checkCatch n (a.relabel f) = .ok () ↔ checkCatch n a = .ok () := by
  rw [checkCatch_eq_ok, checkCatch_eq_ok, TypeAnnotation.relabel]
  cases a.target <;> simp [TypeTarget.map]

theorem checkAnnotable_eq_ok {v : Visibility} : m.checkAnnotable n v = .ok () ↔ ∀ count, m.annotable v = some count →
    count.toNat ≤ n ∧ ∀ q ∈ m.parameters.take (n - count.toNat), ∀ a ∈ q.annotations, a.visibility ≠ v := by
  unfold checkAnnotable
  cases m.annotable v with
  | none => simp
  | some count =>
    simp only [bind_eq_ok, ensure_eq_ok, decide_eq_true_eq, Option.some.injEq, forall_eq']
    constructor
    · rintro ⟨-, hle, h⟩
      refine ⟨hle, ?_⟩
      split at h
      next => cases h
      next hf =>
        rw [findIdx?_eq_none_iff] at hf
        simpa using hf
    · rintro ⟨hle, h⟩
      refine ⟨(), hle, ?_⟩
      split
      next i hi =>
        obtain ⟨hlt, ha, -⟩ := findIdx?_eq_some_iff_getElem.1 hi
        obtain ⟨a, ham, hav⟩ := any_eq_true.1 ha
        exact absurd (by simpa using hav) (h _ (getElem_mem hlt) a ham)
      next => rfl

/-! ## Methods -/

theorem mem_annotations_normal {a : Annotation} : a ∈ q.normal.annotations ↔ a ∈ q.annotations := by
  simp only [Parameter.normal, mem_append, mem_filter, beq_iff_eq, ← and_or_left, and_iff_left_iff_imp]
  cases a.visibility <;> simp

theorem mem_take_normalParameters (h : q ∈ m.normalParameters.take n) : ∃ r ∈ m.parameters.take n, q = r.normal := by
  unfold normalParameters at h
  split at h
  · simp at h
  · rw [← map_take] at h
    obtain ⟨r, hr, rfl⟩ := mem_map.1 h
    exact ⟨r, hr, rfl⟩

theorem mem_normalParameters (h : q ∈ m.normalParameters) : ∃ r ∈ m.parameters, q = r.normal := by
  rw [← take_length (l := m.normalParameters)] at h
  obtain ⟨r, hr, rfl⟩ := mem_take_normalParameters h
  exact ⟨r, mem_of_mem_take hr, rfl⟩

theorem tryCatches_normal (m : Method) : m.normal.tryCatches = m.tryCatches := by
  rw [tryCatches, tryCatches, normal, countP_map]
  refine countP_congr fun entry _ => ?_
  cases entry <;> simp [MethodEntry.relabel]

theorem mem_typeAnnotations_normal (h : a ∈ m.normal.typeAnnotations) :
    a ∈ m.typeAnnotations ∨ ∃ b ∈ m.typeAnnotations, a = b.relabel (Label.renumber m.mentions) := by
  rcases mem_append.1 h with h | h
  · exact .inl (mem_filter.1 h).1
  · obtain ⟨b, hb, rfl⟩ := mem_map.1 h
    exact .inr ⟨b, (mem_filter.1 hb).1, rfl⟩

/-- **The normal form of a method that follows the rules follows all rules but those on labels.** -/
theorem Valid.normal (h : m.Valid arguments result) (hl : m.normal.checkLabels = .ok ()) :
    m.normal.Valid arguments result := by
  have hb : m.normal.hasBody = m.hasBody := by simp [hasBody, Method.normal]
  refine ⟨h.visibility, h.descriptor, h.abstractAccess, h.body.trans hb.symm, ?_, h.maxs, ?_, fun v => ?_, h.annotations,
    fun q hq a ha => ?_, fun a ha => ?_, fun a ha => ?_, h.default, hl, fun e he => ?_⟩
  · rw [hb]
    simpa [Method.normal] using h.bodyParts
  · have hp := h.parameters
    simp only [Method.normal, normalParameters, Bool.or_eq_true, List.isEmpty_iff, beq_iff_eq] at hp ⊢
    split
    · exact .inl rfl
    · simpa using hp
  · refine checkAnnotable_eq_ok.2 fun count hc => ?_
    obtain ⟨hle, hn⟩ := checkAnnotable_eq_ok.1 (h.annotable v) count (by cases v <;> exact hc)
    refine ⟨hle, fun q hq a ha => ?_⟩
    obtain ⟨r, hr, rfl⟩ := mem_take_normalParameters hq
    exact hn r hr a (mem_annotations_normal.1 ha)
  · obtain ⟨r, hr, rfl⟩ := mem_normalParameters hq
    exact h.parameterAnnotations r hr a (mem_annotations_normal.1 ha)
  · rw [hb]
    rcases mem_typeAnnotations_normal ha with ha | ⟨b, hbm, rfl⟩
    · exact h.typeAnnotations a ha
    · exact Iff.mpr (b.validate_relabel _) (h.typeAnnotations b hbm)
  · rw [tryCatches_normal]
    rcases mem_typeAnnotations_normal ha with ha | ⟨b, hbm, rfl⟩
    · exact h.catches a ha
    · exact (checkCatch_relabel _).2 (h.catches b hbm)
  · obtain ⟨entry, hm, rfl⟩ := mem_map.1 he
    exact (h.entries entry hm).relabel _

end Method

end Model

/-- **The normal form of a class that follows the rules follows them too, if the labels of its methods are in order.** -/
theorem ClassModel.Valid.normal {c : ClassModel} (h : c.Valid) (hl : ∀ m ∈ c.normal.methods, m.checkLabels = .ok ()) :
    c.normal.Valid := by
  refine ⟨h.visibility, h.interfaceAbstract, h.interfaceFinal, h.moduleFlag, h.annotations, h.typeAnnotations, h.components,
    h.componentNames, h.fields, h.fieldNames, fun m hm => ?_, ?_⟩
  · have hlm := hl m hm
    obtain ⟨m, hmem, rfl⟩ := mem_map.1 hm
    obtain ⟨arguments, result, hv⟩ := h.methods m hmem
    exact ⟨arguments, result, hv.normal hlm⟩
  · rw [ClassModel.normal, map_map]
    exact h.methodNames

end ClassDoc
