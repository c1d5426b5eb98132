/-
  Code as it is read, in parts.
-/
import ClassDoc.Proofs.Code.Attribute
import ClassDoc.Proofs.Labels.Order
import ClassDoc.Proofs.Model.Emit
namespace ClassDoc

open List

/-- The events of a code by kind. -/
structure CodeParts where
  entries : List CodeEvent := []
  locals : List LocalVariable := []
  types : List (Bool × TypeAnnotation Label) := []
  maxs : Option (UInt16 × UInt16) := none

def CodeParts.events (c : CodeParts) : List CodeEvent :=
  c.entries ++ c.locals.map .localVariable ++ c.types.map (fun a => .annotateType a.1 a.2)
    ++ c.maxs.toList.map fun maxs => .maxs maxs.1 maxs.2

/-! ## The parts of code -/

namespace RawCode

variable {raw : RawCode} {code : List CodeEvent} {e : CodeEvent}

def parts (raw : RawCode) : CodeParts where
  entries := raw.tryCatchEvents raw.labels ++ raw.insns.flatMap (insnEvents raw.labels raw.framesAt raw.linesAt)
    ++ raw.endEvents raw.labels
  locals := (variableEvents raw.labels raw.signaturesOf [] raw.locals).filterMap Body.localVariable?
  types := raw.typeAnnotations.map fun a => (a.1, a.2.map (labelAt raw.labels))
  maxs := some (raw.maxStack, raw.maxLocals)

theorem events_parts (h : raw.events = .ok code) : raw.parts.events = code := by
  obtain ⟨_, -, h⟩ := bind_eq_ok.1 h
  cases h
  have hv : ((variableEvents raw.labels raw.signaturesOf [] raw.locals).filterMap Body.localVariable?).map
      CodeEvent.localVariable = variableEvents raw.labels raw.signaturesOf [] raw.locals := by
    rw [map_filterMap]
    refine (filterMap_congr fun e he => ?_).trans filterMap_some
    rcases mem_variableEvents he with he | ⟨v, -, s, rfl⟩
    · cases he
    · rfl
  have ht : (raw.typeAnnotations.map fun a => (a.1, a.2.map (labelAt raw.labels))).map
      (fun a => CodeEvent.annotateType a.1 a.2) = raw.typeEvents raw.labels := by
    rw [map_map, typeEvents]
    exact map_congr_left fun a _ => congrArg (CodeEvent.annotateType a.1) (a.2.idRun_mapLabels).symm
  rw [CodeParts.events, parts, hv, ht]
  rfl

theorem mem_frames_of_framesAt {o : UInt16} {f : Frame UInt16} (h : raw.framesAt[o]? = some f) :
    ∃ x ∈ raw.frames, x.2 = f := by
  have hf : (raw.frames.reverse.find? fun x => x.1 == o).map Prod.snd = some f := by
    rw [← getElem?_foldl_insert (fun x => x.1) Prod.snd]
    exact h
  obtain ⟨x, hx, rfl⟩ := Option.map_eq_some_iff.1 hf
  exact ⟨x, mem_reverse.1 (mem_of_find?_eq_some hx), rfl⟩

theorem mem_entries_parts (h : e ∈ raw.parts.entries) : (∃ t, e = .tryCatch t) ∨ (∃ l, e = .label l) ∨
    (∃ line l, e = .lineNumber line l) ∨ (∃ f ∈ raw.frames, e = .frame (f.2.map (labelAt raw.labels))) ∨
    ∃ i ∈ raw.insns, e = .insn (i.2.map (labelAt raw.labels)) := by
  simp only [parts, mem_append, mem_flatMap] at h
  rcases h with (h | ⟨i, hi, h⟩) | h
  · obtain ⟨t, -, rfl⟩ := mem_map.1 h
    exact .inl ⟨_, rfl⟩
  · rw [insnEvents_eq, mem_append, mem_append, mem_singleton] at h
    rcases h with (h | h) | rfl
    · obtain ⟨l, -, h⟩ := mem_flatMap.1 h
      rcases mem_cons.1 h with rfl | h
      · exact .inr (.inl ⟨l, rfl⟩)
      · obtain ⟨line, -, rfl⟩ := mem_map.1 h
        exact .inr (.inr (.inl ⟨line, l, rfl⟩))
    · obtain ⟨f, hf, rfl⟩ := mem_map.1 h
      obtain ⟨x, hx, rfl⟩ := mem_frames_of_framesAt (Option.mem_toList.1 hf)
      exact .inr (.inr (.inr (.inl ⟨x, hx, by rw [Frame.idRun_mapLabels]⟩)))
    · exact .inr (.inr (.inr (.inr ⟨i, hi, rfl⟩)))
  · rw [endEvents] at h
    split at h
    · exact .inr (.inl ⟨_, mem_singleton.1 h⟩)
    · cases h

theorem ofEvents_parts (h : raw.events = .ok code) : (Body.ofEvents code).typeAnnotations = raw.parts.types ∧
    (Body.ofEvents code).localVariables = raw.parts.locals ∧
    (Body.ofEvents code).lineNumbers = raw.parts.entries.filterMap Body.lineNumber? := by
  have ht : raw.parts.entries.filterMap Body.annotatedType? = [] := filterMap_eq_nil_iff.2 fun e he => by
    rcases mem_entries_parts he with ⟨t, rfl⟩ | ⟨l, rfl⟩ | ⟨line, l, rfl⟩ | ⟨f, -, rfl⟩ | ⟨i, -, rfl⟩ <;> rfl
  have hv : raw.parts.entries.filterMap Body.localVariable? = [] := filterMap_eq_nil_iff.2 fun e he => by
    rcases mem_entries_parts he with ⟨t, rfl⟩ | ⟨l, rfl⟩ | ⟨line, l, rfl⟩ | ⟨f, -, rfl⟩ | ⟨i, -, rfl⟩ <;> rfl
  rw [← events_parts h]
  simp [Body.ofEvents, CodeParts.events, ht, hv, filterMap_map, Function.comp_def, Body.annotatedType?,
    Body.localVariable?, Body.lineNumber?]

theorem entries_parts_ne_nil (h : raw.insns ≠ []) : raw.parts.entries ≠ [] := by
  obtain ⟨i, hi⟩ := exists_mem_of_ne_nil _ h
  refine ne_nil_of_mem (a := .insn (Id.run (i.2.mapLabels (labelAt raw.labels)))) ?_
  simp only [parts, mem_append, mem_flatMap]
  exact .inl (.inr ⟨i, hi, by simp [insnEvents]⟩)

theorem countP_entries_parts : raw.parts.entries.countP (fun e => (Body.tryCatch? e).isSome) = raw.tryCatches.length := by
  have hi : ∀ i ∈ raw.insns, (insnEvents raw.labels raw.framesAt raw.linesAt i).countP
      (fun e => (Body.tryCatch? e).isSome) = 0 := by
    intro i _
    rw [insnEvents_eq, countP_eq_zero]
    simp only [forall_mem_append, forall_mem_flatMap, forall_mem_cons, forall_mem_map]
    exact ⟨⟨fun _ _ => ⟨by simp [Body.tryCatch?], fun _ _ => by simp [Body.tryCatch?]⟩, fun _ _ => by simp [Body.tryCatch?]⟩,
      by simp [Body.tryCatch?], by simp⟩
  have he : (raw.endEvents raw.labels).countP (fun e => (Body.tryCatch? e).isSome) = 0 := by
    rw [endEvents]
    split <;> rfl
  have ht : (raw.tryCatchEvents raw.labels).countP (fun e => (Body.tryCatch? e).isSome) = raw.tryCatches.length := by
    rw [tryCatchEvents, countP_map]
    exact countP_eq_length.2 fun _ _ => rfl
  have hz : (raw.insns.map fun i => (insnEvents raw.labels raw.framesAt raw.linesAt i).countP
      fun e => (Body.tryCatch? e).isSome).sum = 0 := sum_eq_zero (forall_mem_map.2 hi)
  rw [parts, countP_append, countP_append, ht, he, countP_flatMap]
  simpa [Function.comp_def] using hz

end RawCode

/-! ## Rules -/

mutual

theorem Constant.kindsOk_normal : (c : Constant) → c.normal.kindsOk = c.kindsOk
  | .dynamic _ _ _ arguments => by
    simp only [Constant.normal, Constant.kindsOk, Constant.allKindsOk_normalAll arguments, Handle.normal]
  | .methodHandle _ | .integer _ | .float _ | .long _ | .double _ | .string _ | .classRef _ | .methodType _ => by
    simp [Constant.normal, Constant.kindsOk, Handle.normal]

theorem Constant.allKindsOk_normalAll : (cs : List Constant) →
    Constant.allKindsOk (Constant.normalAll cs) = Constant.allKindsOk cs
  | [] => by rw [Constant.normalAll]
  | c :: rest => by
    simp only [Constant.normalAll, Constant.allKindsOk, Constant.kindsOk_normal c, Constant.allKindsOk_normalAll rest]

end

theorem Insn.WellFormed.normal {L : Type} {i : Insn L} (h : i.WellFormed) : i.normal.WellFormed := by
  cases i with
  | invokeDynamic name descriptor bootstrap arguments => exact ⟨h.1, (Constant.allKindsOk_normalAll arguments).trans h.2⟩
  | ldc constant => exact (Constant.kindsOk_normal constant).trans h
  | lookupSwitch => trivial
  | _ => exact h

theorem wellFormed_rawInsns (layout : Layout) (pc : Nat) (wide : Bool) {i : Insn Label} (h : i.WellFormed) :
    ∀ x ∈ rawInsns layout pc wide i, x.2.WellFormed := by
  cases i with
  | jump op target =>
    rw [rawInsns]
    split
    next inverse hi =>
      have hinverse : Opcode.inverse? op = some inverse := by
        cases wide with
        | true => exact hi
        | false => cases hi
      simp only [forall_mem_cons]
      exact ⟨Opcode.isJump_of_inverse? hinverse, show Opcode.isJump Opcode.goto = true by decide, by simp⟩
    next =>
      rw [forall_mem_singleton]
      exact h
  | _ =>
    rw [rawInsns]
    · rw [forall_mem_singleton]
      exact (Insn.wellFormed_map (f := layout.posOf)).2 h.normal
    · simp

theorem Layout.Fits.wellFormed_raw {P : Pool} {items : List Item} {layout : Layout} (h : layout.Fits P items)
    (hi : ∀ i, .insn i ∈ items → i.WellFormed) : ∀ x ∈ layout.raw, x.2.WellFormed := by
  intro x hx
  obtain ⟨y, hy, hx⟩ := mem_flatMap.1 hx
  rw [Placed.raw] at hx
  split at hx
  next i hyi => exact wellFormed_rawInsns layout y.offset y.wide (hi i (hyi ▸ h.item_mem hy)) x hx
  next => cases hx

end ClassDoc
