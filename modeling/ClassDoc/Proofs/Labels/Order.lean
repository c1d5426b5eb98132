/-
  The labels of code that is read.
-/
import ClassDoc.Proofs.Code.Raw
import ClassDoc.Proofs.Labels.Code
import Mathlib.Data.List.Sort
namespace ClassDoc

open List

theorem Label.mem_firsts {count i : Nat} (h : i < count) : (⟨UInt32.ofNat i⟩ : Label) ∈ Label.firsts count :=
  mem_map.2 ⟨i, mem_range.2 h, rfl⟩

theorem Label.nodup_firsts {count : Nat} (h : count ≤ 2 ^ 32) : (Label.firsts count).Nodup := by
  refine List.Nodup.map_on (fun i hi j hj hij => ?_) nodup_range
  rw [mem_range] at hi hj
  have hn := congrArg (fun l : Label => l.id.toNat) hij
  simp only [UInt32.toNat_ofNat'] at hn
  rwa [Nat.mod_eq_of_lt (hi.trans_le h), Nat.mod_eq_of_lt (hj.trans_le h)] at hn

/-- Labels are numbered in the order in which they are defined. -/
structure NumberedInOrder (code : List CodeEvent) : Prop where
  defined : ∃ count ≤ 0x10000, code.filterMap CodeEvent.defined? = Label.firsts count
  mentioned : ∀ e ∈ code, ∀ l ∈ e.labels, l ∈ code.filterMap CodeEvent.defined?

theorem NumberedInOrder.wellLabelled {code : List CodeEvent} (h : NumberedInOrder code) : WellLabelled code := by
  obtain ⟨count, hc, hd⟩ := h.defined
  exact ⟨hd ▸ Label.nodup_firsts (hc.trans (by decide)), h.mentioned⟩

namespace RawCode

variable {raw : RawCode} {code : List CodeEvent} {i : UInt16 × Insn UInt16} {o : UInt16}

/-! ## Numbers of labels -/

theorem length_labelOffsets (raw : RawCode) : raw.labelOffsets.length ≤ 0x10000 := by
  have hn : (raw.labelOffsets.map UInt16.toNat).Nodup :=
    raw.pairwise_labelOffsets.map UInt16.toNat fun _ _ h => Nat.ne_of_lt h
  have hs : raw.labelOffsets.map UInt16.toNat ⊆ List.range 0x10000 := by
    intro n hn
    obtain ⟨o, -, rfl⟩ := mem_map.1 hn
    exact mem_range.2 o.toNat_lt
  simpa using (hn.subperm hs).length_le

theorem labelAt_mem (h : o ∈ raw.references) : labelAt raw.labels o ∈ Label.firsts raw.labelOffsets.length := by
  obtain ⟨i, hi⟩ := mem_iff_getElem?.1 (raw.mem_labelOffsets.2 h)
  have hl : raw.labels[o]? = some ⟨UInt32.ofNat i⟩ := raw.getElem?_labels.2 ⟨i, hi, rfl⟩
  rw [labelAt, hl]
  exact Label.mem_firsts (List.getElem?_eq_some_iff.1 hi).1

theorem filterMap_labels {positions : List UInt16} (hp : positions.Pairwise (· < ·))
    (hl : ∀ o ∈ raw.references, o ∈ positions) :
    positions.filterMap (raw.labels[·]?) = Label.firsts raw.labelOffsets.length := by
  have hf : positions.filter (· ∈ raw.labelOffsets) = raw.labelOffsets := by
    have : Std.Antisymm (fun a b : UInt16 => a < b) := ⟨fun a b h h' => absurd h' (UInt16.lt_asymm h)⟩
    have : Std.Irrefl (fun a b : UInt16 => a < b) := ⟨fun a => UInt16.lt_irrefl a⟩
    refine (hp.filter _).eq_of_mem_iff raw.pairwise_labelOffsets fun o => ?_
    simp only [mem_filter, decide_eq_true_eq, and_iff_right_iff_imp]
    exact fun ho => hl o (raw.mem_labelOffsets.1 ho)
  have hn : positions.filterMap (raw.labels[·]?) = raw.labelOffsets.filterMap (raw.labels[·]?) := by
    conv_rhs => rw [← hf, filterMap_filter]
    refine filterMap_congr fun o _ => ?_
    split
    · rfl
    next ho =>
      refine Option.eq_none_iff_forall_ne_some.2 fun l hs => ho ?_
      obtain ⟨i, hi, -⟩ := raw.getElem?_labels.1 hs
      simpa using mem_of_getElem? hi
  have hz : ∀ x ∈ raw.labelOffsets.zipIdx, raw.labels[x.1]? = some ⟨UInt32.ofNat x.2⟩ := fun x hx =>
    raw.getElem?_labels.2 ⟨x.2, mem_zipIdx_iff_getElem?.1 hx, rfl⟩
  calc positions.filterMap (raw.labels[·]?)
      = (raw.labelOffsets.zipIdx.map Prod.fst).filterMap (raw.labels[·]?) := by rw [hn, zipIdx_map_fst]
    _ = raw.labelOffsets.zipIdx.filterMap (fun x => raw.labels[x.1]?) := filterMap_map
    _ = raw.labelOffsets.zipIdx.filterMap (fun x => some ⟨UInt32.ofNat x.2⟩) := filterMap_congr hz
    _ = (raw.labelOffsets.zipIdx.map Prod.snd).map (fun i => ⟨UInt32.ofNat i⟩) := by
      rw [map_map, ← filterMap_eq_map]
      rfl
    _ = Label.firsts raw.labelOffsets.length := by rw [zipIdx_map_snd, Label.firsts, range_eq_range']

/-! ## Labels of events -/

theorem labels_of_check (h : raw.check = .ok ()) (ho : o ∈ raw.references) :
    o ∈ raw.insns.map Prod.fst ++ [raw.length] := by
  rw [check] at h
  split at h
  · cases h
  next hf =>
    have hs := find?_eq_none.1 hf o (raw.mem_labelOffsets.2 ho)
    rw [mem_append, mem_singleton, ← raw.contains_starts]
    by_cases hc : raw.starts.contains o = true
    · exact .inl hc
    · exact .inr (by simpa [hc] using hs)

theorem map_labelAt_subset (os : List UInt16) (h : ∀ o ∈ os, o ∈ raw.references) {l : Label}
    (hl : l ∈ os.map (labelAt raw.labels)) : l ∈ Label.firsts raw.labelOffsets.length := by
  obtain ⟨o, ho, rfl⟩ := mem_map.1 hl
  exact labelAt_mem (h o ho)

theorem mem_firsts_of_labels {l : Label} (h : raw.labels[o]? = some l) : l ∈ Label.firsts raw.labelOffsets.length := by
  obtain ⟨i, hi, rfl⟩ := raw.getElem?_labels.1 h
  exact Label.mem_firsts (List.getElem?_eq_some_iff.1 hi).1

/-- An event that defines no label, and whose labels are among those of the code. -/
def Refers (raw : RawCode) (e : CodeEvent) : Prop :=
  e.defined? = none ∧ ∀ l ∈ e.labels, l ∈ Label.firsts raw.labelOffsets.length

theorem refers_tryCatches : ∀ e ∈ raw.tryCatchEvents raw.labels, raw.Refers e := by
  intro e he
  obtain ⟨t, ht, rfl⟩ := mem_map.1 he
  refine ⟨rfl, fun l hl => map_labelAt_subset [t.start, t.stop, t.handler] (fun o ho => ?_) hl⟩
  simp only [references, mem_append, mem_flatMap]
  exact .inl (.inl (.inl (.inl (.inr ⟨t, ht, ho⟩))))

theorem refers_frame {i : UInt16} {f : Frame UInt16} (h : raw.framesAt[i]? = some f) :
    raw.Refers (.frame (Id.run (f.mapLabels (labelAt raw.labels)))) := by
  refine ⟨rfl, fun l hl => ?_⟩
  rw [CodeEvent.labels, Frame.idRun_mapLabels, Frame.labels_map] at hl
  refine map_labelAt_subset _ (fun o ho => ?_) hl
  have hf : (raw.frames.reverse.find? fun x => x.1 == i).map Prod.snd = some f := by
    rw [← getElem?_foldl_insert (fun x => x.1) Prod.snd]
    exact h
  obtain ⟨x, hx, rfl⟩ := Option.map_eq_some_iff.1 hf
  have hm : x ∈ raw.frames := mem_reverse.1 (mem_of_find?_eq_some hx)
  simp only [references, mem_append, mem_flatMap]
  exact .inl (.inl (.inl (.inr ⟨x, hm, ho⟩)))

theorem refers_insn (h : i ∈ raw.insns) : raw.Refers (.insn (Id.run (i.2.mapLabels (labelAt raw.labels)))) := by
  refine ⟨rfl, fun l hl => ?_⟩
  have ht : (CodeEvent.insn (Id.run (i.2.mapLabels (labelAt raw.labels)))).labels = i.2.targets.map (labelAt raw.labels) :=
    Insn.targets_map _
  rw [ht] at hl
  refine map_labelAt_subset _ (fun o ho => ?_) hl
  simp only [references, mem_append, mem_flatMap]
  exact .inl (.inl (.inl (.inl (.inl ⟨i, h, ho⟩))))

theorem mem_variableEvents {signatures : Std.HashMap VariableKey String} {found : List CodeEvent} {vs : List RawVariable}
    {labels : Std.HashMap UInt16 Label} {e : CodeEvent} (h : e ∈ variableEvents labels signatures found vs) :
    e ∈ found ∨ ∃ v ∈ vs, ∃ s, e = .localVariable
      ⟨v.name, v.descriptor, s, labelAt labels v.start, labelAt labels v.stop, v.index⟩ := by
  induction vs generalizing signatures found with
  | nil => exact .inl (mem_reverse.1 h)
  | cons v vs ih =>
    rcases ih h with h | ⟨w, hw, s, rfl⟩
    · rcases mem_cons.1 h with rfl | h
      · exact .inr ⟨v, by simp, _, rfl⟩
      · exact .inl h
    · exact .inr ⟨w, by simp [hw], s, rfl⟩

theorem refers_variables : ∀ e ∈ variableEvents raw.labels raw.signaturesOf [] raw.locals, raw.Refers e := by
  intro e he
  rcases mem_variableEvents he with he | ⟨v, hv, s, rfl⟩
  · cases he
  · refine ⟨rfl, fun l hl => map_labelAt_subset [v.start, v.stop] (fun o ho => ?_) hl⟩
    simp only [references, mem_append, mem_flatMap]
    exact .inl (.inr ⟨v, hv, ho⟩)

theorem refers_types : ∀ e ∈ raw.typeEvents raw.labels, raw.Refers e := by
  intro e he
  obtain ⟨⟨visible, a⟩, ha, rfl⟩ := mem_map.1 he
  refine ⟨rfl, fun l hl => ?_⟩
  rw [CodeEvent.labels, TypeAnnotation.idRun_mapLabels] at hl
  have ht : ((a.map (labelAt raw.labels)).target).labels = a.target.labels.map (labelAt raw.labels) :=
    TypeTarget.labels_map _
  rw [ht] at hl
  refine map_labelAt_subset _ (fun o ho => ?_) hl
  simp only [references, mem_append, mem_flatMap]
  exact .inr ⟨(visible, a), ha, ho⟩

/-! ## All events -/

theorem insnEvents_eq (raw : RawCode) (i : UInt16 × Insn UInt16) :
    insnEvents raw.labels raw.framesAt raw.linesAt i
      = raw.labels[i.1]?.toList.flatMap (fun l => .label l :: (raw.linesAt[i.1]?.getD []).reverse.map (.lineNumber · l))
        ++ raw.framesAt[i.1]?.toList.map (fun f => .frame (Id.run (f.mapLabels (labelAt raw.labels))))
        ++ [.insn (Id.run (i.2.mapLabels (labelAt raw.labels)))] := by
  rw [insnEvents]
  cases raw.labels[i.1]? <;> cases raw.framesAt[i.1]? <;> simp

theorem insnEvents_labels (h : i ∈ raw.insns) :
    (insnEvents raw.labels raw.framesAt raw.linesAt i).filterMap CodeEvent.defined? = raw.labels[i.1]?.toList ∧
      ∀ e ∈ insnEvents raw.labels raw.framesAt raw.linesAt i, ∀ l ∈ e.labels, l ∈ Label.firsts raw.labelOffsets.length := by
  rw [insnEvents_eq]
  constructor
  · cases raw.labels[i.1]? <;> simp [CodeEvent.defined?]
  · intro e he
    rw [mem_append, mem_append, mem_singleton] at he
    rcases he with (he | he) | rfl
    · obtain ⟨l, hl, he⟩ := mem_flatMap.1 he
      have hm := mem_firsts_of_labels (Option.mem_toList.1 hl)
      rcases mem_cons.1 he with rfl | he
      · simpa [CodeEvent.labels] using hm
      · obtain ⟨line, -, rfl⟩ := mem_map.1 he
        simpa [CodeEvent.labels] using hm
    · obtain ⟨f, hf, rfl⟩ := mem_map.1 he
      exact (refers_frame (Option.mem_toList.1 hf)).2
    · exact (refers_insn h).2

theorem endEvents_labels (raw : RawCode) :
    (raw.endEvents raw.labels).filterMap CodeEvent.defined? = [raw.length].filterMap (raw.labels[·]?) ∧
      ∀ e ∈ raw.endEvents raw.labels, ∀ l ∈ e.labels, l ∈ Label.firsts raw.labelOffsets.length := by
  rw [endEvents]
  cases hl : raw.labels[raw.length]? with
  | none => exact ⟨by simp [hl], by simp⟩
  | some l => exact ⟨by simp [hl, CodeEvent.defined?], by simpa [CodeEvent.labels] using mem_firsts_of_labels hl⟩

/-- **The labels of code that is read are numbered in the order of its events, and no others are mentioned.** -/
theorem numberedInOrder (h : raw.events = .ok code)
    (hp : (raw.insns.map Prod.fst).Pairwise (· < ·)) (hl : ∀ i ∈ raw.insns, i.1 < raw.length) : NumberedInOrder code := by
  obtain ⟨_, hc, h⟩ := bind_eq_ok.1 h
  cases h
  obtain ⟨hend, hends⟩ := raw.endEvents_labels
  have hnil : ∀ {es : List CodeEvent}, (∀ e ∈ es, raw.Refers e) → es.filterMap CodeEvent.defined? = [] :=
    fun h => filterMap_eq_nil_iff.2 fun e he => (h e he).1
  have hinsns : (raw.insns.flatMap (insnEvents raw.labels raw.framesAt raw.linesAt)).filterMap CodeEvent.defined?
      = (raw.insns.map Prod.fst).filterMap (raw.labels[·]?) := by
    rw [filterMap_flatMap, filterMap_map, filterMap_eq_flatMap_toList]
    exact flatMap_congr fun i hi => (insnEvents_labels hi).1
  have hpos : (raw.insns.map Prod.fst ++ [raw.length]).Pairwise (· < ·) := by
    rw [pairwise_append]
    refine ⟨hp, pairwise_singleton _ _, fun o ho n hn => ?_⟩
    obtain ⟨i, hi, rfl⟩ := mem_map.1 ho
    rw [mem_singleton.1 hn]
    exact hl i hi
  have hdef : (raw.tryCatchEvents raw.labels ++ raw.insns.flatMap (insnEvents raw.labels raw.framesAt raw.linesAt)
      ++ raw.endEvents raw.labels ++ variableEvents raw.labels raw.signaturesOf [] raw.locals ++ raw.typeEvents raw.labels
      ++ [CodeEvent.maxs raw.maxStack raw.maxLocals]).filterMap CodeEvent.defined? =
        Label.firsts raw.labelOffsets.length := by
    rw [← filterMap_labels hpos fun o ho => labels_of_check hc ho]
    have hmaxs : [CodeEvent.maxs raw.maxStack raw.maxLocals].filterMap CodeEvent.defined? = [] := rfl
    simp only [filterMap_append, hnil refers_tryCatches, hnil refers_variables, hnil refers_types, hinsns, hend, hmaxs,
      nil_append, append_nil]
  refine ⟨⟨_, length_labelOffsets raw, hdef⟩, ?_⟩
  rw [hdef]
  simp only [forall_mem_append, forall_mem_flatMap, forall_mem_singleton]
  refine ⟨⟨⟨⟨⟨fun e he => (refers_tryCatches e he).2, fun i hi => (insnEvents_labels hi).2⟩, hends⟩,
    fun e he => (refers_variables e he).2⟩, fun e he => (refers_types e he).2⟩, by simp [CodeEvent.labels]⟩

def insn? : CodeEvent → Option (Insn Label)
  | .insn i => some i
  | _ => none

theorem filterMap_insn? (h : raw.events = .ok code) :
    code.filterMap insn? = raw.insns.map fun x => x.2.map (labelAt raw.labels) := by
  obtain ⟨_, -, h⟩ := bind_eq_ok.1 h
  cases h
  have htry : (raw.tryCatchEvents raw.labels).filterMap insn? = [] := by
    simp [tryCatchEvents, filterMap_map, Function.comp_def, insn?]
  have hend : (raw.endEvents raw.labels).filterMap insn? = [] := by
    rw [endEvents]
    split <;> rfl
  have hlocals : (variableEvents raw.labels raw.signaturesOf [] raw.locals).filterMap insn? = [] := by
    refine filterMap_eq_nil_iff.2 fun e he => ?_
    rcases mem_variableEvents he with he | ⟨v, -, s, rfl⟩
    · cases he
    · rfl
  have htypes : (raw.typeEvents raw.labels).filterMap insn? = [] := by
    simp [typeEvents, filterMap_map, Function.comp_def, insn?]
  have hinsns : (raw.insns.flatMap (insnEvents raw.labels raw.framesAt raw.linesAt)).filterMap insn?
      = raw.insns.map fun x => x.2.map (labelAt raw.labels) := by
    rw [filterMap_flatMap, map_eq_flatMap]
    refine flatMap_congr fun x _ => ?_
    rw [insnEvents_eq, filterMap_append, filterMap_append]
    cases raw.labels[x.1]? <;> cases raw.framesAt[x.1]? <;>
      simp [filterMap_cons, filterMap_reverse, filterMap_map, Function.comp_def, insn?, Insn.map]
  have hmaxs : [CodeEvent.maxs raw.maxStack raw.maxLocals].filterMap insn? = [] := rfl
  simp only [filterMap_append, htry, hinsns, hend, hlocals, htypes, hmaxs, nil_append, append_nil]

theorem mem_insns_of_events (h : raw.events = .ok code) {i : Insn Label} (hi : .insn i ∈ code) :
    ∃ x ∈ raw.insns, i = x.2.map (labelAt raw.labels) := by
  have hm : i ∈ code.filterMap insn? := mem_filterMap.2 ⟨_, hi, rfl⟩
  rw [filterMap_insn? h] at hm
  obtain ⟨x, hx, rfl⟩ := mem_map.1 hm
  exact ⟨x, hx, rfl⟩

end RawCode

end ClassDoc
