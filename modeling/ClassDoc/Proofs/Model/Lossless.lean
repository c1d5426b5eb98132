/-
  What is lost between models and class files: nothing of an instruction, and of annotations all but the last value of an
  element name.
-/
import ClassDoc.Proofs.Model.Representable
namespace ClassDoc

open List

namespace Operand

mutual

theorem ofConstant_inj : (c d : Constant) → ofConstant c = ofConstant d → c = d
  | .dynamic name descriptor bootstrap cs, d, h => by
    cases d with
    | dynamic name' descriptor' bootstrap' ds =>
      simp only [ofConstant, dynamic.injEq] at h
      obtain ⟨rfl, rfl, rfl, hs⟩ := h
      rw [ofConstants_inj cs ds hs]
    | _ => cases h
  | .integer _, d, h | .float _, d, h | .long _, d, h | .double _, d, h | .string _, d, h | .classRef _, d, h
  | .methodType _, d, h | .methodHandle _, d, h => by
    cases d <;> first | (cases h; rfl) | cases h

theorem ofConstants_inj : (cs ds : List Constant) → ofConstants cs = ofConstants ds → cs = ds
  | [], ds, h => by
    cases ds with
    | nil => rfl
    | cons => cases h
  | c :: cs, ds, h => by
    cases ds with
    | nil => cases h
    | cons d ds =>
      rw [ofConstants, ofConstants, cons.injEq] at h
      rw [ofConstant_inj c d h.1, ofConstants_inj cs ds h.2]

end

end Operand

/-! ## Instructions -/

def Opcode.Shape.kin : Shape → List Shape
  | .byte | .short | .elementType => [.byte, .short, .elementType]
  | s => [s]

theorem Insn.shapes_eq_kin {L : Type} {i : Insn L} (h : i.Fits) : i.shapes = (Opcode.shape i.opcode).kin := by
  unfold Fits at h
  cases i with
  | int op v =>
    simp only [shapes, mem_cons, not_mem_nil, or_false] at h
    rcases h with h | h | h <;> rw [h] <;> rfl
  | _ => rw [mem_singleton.1 h]; rfl

namespace Instruction

theorem textOperand_inj {s t : String} (h : textOperand s = textOperand t) : s = t :=
  JavaText.ofString_injective (Operand.string.inj h)

theorem indexOperand_inj {i j : UInt16} (h : indexOperand i = indexOperand j) : i = j := by
  have ht := congrArg Int32.toInt (Operand.int.inj h)
  rw [toInt_index, toInt_index] at ht
  exact UInt16.toNat_inj.1 (Int.ofNat_inj.1 ht)

theorem ofInsn_inj {x y : Insn Label} (hx : x.Fits) (hy : y.Fits) (h : ofInsn x = ofInsn y) : x = y := by
  have hop : x.opcode = y.opcode := congrArg Instruction.opcode h
  have hs : operandsOf x = operandsOf y := congrArg Instruction.operands h
  have hkind : x.shapes = y.shapes := by rw [Insn.shapes_eq_kin hx, hop, Insn.shapes_eq_kin hy]
  cases x <;> cases y <;> cases hkind <;>
    simp only [Insn.opcode, operandsOf, cons.injEq, Operand.int.injEq, Operand.bool.injEq, Operand.label.injEq,
      Operand.classRef.injEq, Operand.handle.injEq, Operand.array.injEq, and_true] at hop hs
  case simple.simple => rw [hop]
  case int.int | type.type | jump.jump => rw [hop, hs]
  case var.var => rw [hop, indexOperand_inj hs]
  case field.field => rw [hop, hs.1, textOperand_inj hs.2.1, textOperand_inj hs.2.2]
  case method.method => rw [hop, hs.1, textOperand_inj hs.2.1, textOperand_inj hs.2.2.1, hs.2.2.2]
  case invokeDynamic.invokeDynamic =>
    rw [textOperand_inj hs.1, textOperand_inj hs.2.1, hs.2.2.1, Operand.ofConstants_inj _ _ hs.2.2.2]
  case ldc.ldc => rw [Operand.ofConstant_inj _ _ hs]
  case iinc.iinc =>
    have hi := congrArg Int32.toInt hs.2
    rw [Int16.toInt_toInt32, Int16.toInt_toInt32] at hi
    rw [indexOperand_inj hs.1, Int16.toInt_inj.1 hi]
  case tableSwitch.tableSwitch => rw [hs.1, hs.2.1, hs.2.2.1, map_injective_iff.2 (fun _ _ => Operand.label.inj) hs.2.2.2]
  case lookupSwitch.lookupSwitch default pairs _ pairs' =>
    obtain ⟨rfl, hk, ht⟩ := hs
    have hfst : pairs.map Prod.fst = pairs'.map Prod.fst :=
      map_injective_iff.2 (fun _ _ => Operand.int.inj) (by rw [map_map, map_map]; exact hk)
    have hsnd : pairs.map Prod.snd = pairs'.map Prod.snd :=
      map_injective_iff.2 (fun _ _ => Operand.label.inj) (by rw [map_map, map_map]; exact ht)
    rw [zip_of_prod hfst hsnd, ← zip_of_prod rfl rfl]
  case multiANewArray.multiANewArray =>
    have hd := congrArg Int32.toInt hs.2
    rw [toInt_dimensions, toInt_dimensions] at hd
    rw [hs.1, UInt8.toNat_inj.1 (Int.ofNat_inj.1 hd)]

theorem toInsn_ofInsn {x : Insn Label} (h : x.Fits) :
    x.WellFormed ∧ (ofInsn x).toInsn = .ok x ∨ ¬x.WellFormed ∧ ∃ f, (ofInsn x).toInsn = .error f := by
  cases hr : (ofInsn x).toInsn with
  | ok y =>
    obtain ⟨he, hw⟩ := toInsn_eq_ok_iff.1 hr
    obtain rfl := ofInsn_inj h hw.fits he
    exact .inl ⟨hw, rfl⟩
  | error f =>
    refine .inr ⟨fun hw => ?_, f, rfl⟩
    rw [toInsn_eq_ok_iff.2 ⟨rfl, hw⟩] at hr
    cases hr

/-- **An instruction of a model that is turned into one of a class file comes back from it, and goes to the same labels in the
same order. An instruction that was read from code is turned into itself if it is well formed, else into none at all, whatever
its labels are.** -/
theorem toInsn_lossless :
    (∀ (i : Instruction) (x : Insn Label), i.toInsn = .ok x → ofInsn x = i ∧ i.targets = .ok x.targets) ∧
    ∀ (pool : PoolView) (pc : UInt16) (input rest : Input) (x : Insn UInt16), Insn.decode pool pc input = .ok (x, rest) →
      ∀ label : UInt16 → Label, x.WellFormed ∧ (ofInsn (x.map label)).toInsn = .ok (x.map label) ∨
        ¬x.WellFormed ∧ ∃ f, (ofInsn (x.map label)).toInsn = .error f := by
  constructor
  · intro i x h
    obtain ⟨rfl, hw⟩ := toInsn_eq_ok_iff.1 h
    exact ⟨rfl, targets_ofInsn hw.fits⟩
  · intro pool pc input rest x h label
    rw [← Insn.wellFormed_map (f := label)]
    exact toInsn_ofInsn (Insn.fits_map.2 (onward_insn h).2.2.1)

/-- A `tableswitch` for 3 and 4 that is read at the start of code is turned into itself. -/
theorem toInsn_lossless_table :
    (ofInsn (.tableSwitch 3 4 ⟨20⟩ [⟨20⟩, ⟨0⟩])).toInsn = .ok (.tableSwitch 3 4 ⟨20⟩ [⟨20⟩, ⟨0⟩]) ∧
      (ofInsn (.tableSwitch 3 4 ⟨20⟩ [⟨20⟩, ⟨0⟩])).targets = .ok [⟨20⟩, ⟨20⟩, ⟨0⟩] := by
  have hd : Insn.decode { entries := #[] } 0
      { rest := [0xaa, 0, 0, 0, 0, 0, 0, 20, 0, 0, 0, 3, 0, 0, 0, 4, 0, 0, 0, 20, 0, 0, 0, 0] }
      = .ok (.tableSwitch 3 4 20 [20, 0], { rest := [], position := 24 }) := by rfl
  have hw : (Insn.tableSwitch 3 4 20 [20, 0] : Insn UInt16).WellFormed := ⟨by decide, by decide⟩
  rcases toInsn_lossless.2 _ _ _ _ _ hd fun offset => ⟨offset.toUInt32⟩ with ⟨-, h⟩ | ⟨h, -⟩
  · exact ⟨h, (toInsn_lossless.1 _ _ h).2⟩
  · exact absurd hw h

end Instruction

/-! ## Properties -/

section Properties

variable {α β : Type} {R : α → β → Prop} {ps : List (String × α)} {qs : List (String × β)}

def SameName (R : α → β → Prop) (p : String × α) (q : String × β) : Prop := p.1 = q.1 ∧ R p.2 q.2

theorem SameName.keys (h : Forall₂ (SameName R) ps qs) : ps.map Prod.fst = qs.map Prod.fst := by
  rw [← forall₂_eq_eq_eq, forall₂_map_left_iff, forall₂_map_right_iff]
  exact h.imp fun _ _ => And.left

theorem SameName.setProperty (h : Forall₂ (SameName R) ps qs) {name : String} {a : α} {b : β} (hab : R a b) :
    Forall₂ (SameName R) (ClassDoc.setProperty ps name a) (ClassDoc.setProperty qs name b) := by
  by_cases hn : name ∈ ps.map Prod.fst
  · have hn' : name ∈ qs.map Prod.fst := SameName.keys h ▸ hn
    have hp : (ps.any fun p => p.1 == name) = true := by simpa using hn
    have hq : (qs.any fun q => q.1 == name) = true := by simpa using hn'
    rw [ClassDoc.setProperty, ClassDoc.setProperty, hp, hq, if_pos rfl, if_pos rfl, forall₂_map_left_iff,
      forall₂_map_right_iff]
    refine h.imp fun p q hpq => ?_
    rw [← hpq.1]
    split
    · exact ⟨rfl, hab⟩
    · exact hpq
  · rw [setProperty_of_not_mem hn, setProperty_of_not_mem (SameName.keys h ▸ hn)]
    exact rel_append h (.cons ⟨rfl, hab⟩ .nil)

theorem SameName.propertiesOf (h : Forall₂ (SameName R) ps qs) :
    Forall₂ (SameName R) (ClassDoc.propertiesOf ps) (ClassDoc.propertiesOf qs) := by
  have hf : ∀ {done : List (String × α)} {done' : List (String × β)}, Forall₂ (SameName R) done done' →
      Forall₂ (SameName R) (ps.foldl (fun ps e => ClassDoc.setProperty ps e.1 e.2) done)
        (qs.foldl (fun qs e => ClassDoc.setProperty qs e.1 e.2) done') := by
    induction h with
    | nil => exact fun hd => hd
    | cons hpq _ ih =>
      intro done done' hd
      rw [foldl_cons, foldl_cons, hpq.1]
      exact ih (SameName.setProperty hd hpq.2)
  exact hf .nil

end Properties

/-! ## Annotations -/

mutual

def ElementValue.distinct : ElementValue → Bool
  | nested _ elements => decide (elements.map Prod.fst).Nodup && ElementValue.distinctIn elements
  | array values => ElementValue.allDistinct values
  | _ => true

def ElementValue.distinctIn : List (String × ElementValue) → Bool
  | [] => true
  | (_, v) :: rest => v.distinct && ElementValue.distinctIn rest

def ElementValue.allDistinct : List ElementValue → Bool
  | [] => true
  | v :: rest => v.distinct && ElementValue.allDistinct rest

end

mutual

def ElementValue.merged : ElementValue → ElementValue
  | nested descriptor elements => nested descriptor (propertiesOf (ElementValue.mergedIn elements))
  | array values => array (ElementValue.allMerged values)
  | v => v

def ElementValue.mergedIn : List (String × ElementValue) → List (String × ElementValue)
  | [] => []
  | (name, v) :: rest => (name, v.merged) :: ElementValue.mergedIn rest

def ElementValue.allMerged : List ElementValue → List ElementValue
  | [] => []
  | v :: rest => v.merged :: ElementValue.allMerged rest

end

namespace ElementValue

theorem keys_mergedIn (es : List (String × ElementValue)) : (mergedIn es).map Prod.fst = es.map Prod.fst := by
  induction es with
  | nil => rfl
  | cons e es ih => rw [mergedIn, map_cons, map_cons, ih]

mutual

theorem merged_eq_self_iff : (v : ElementValue) → (v.merged = v ↔ v.distinct = true)
  | nested descriptor elements => by
    rw [merged, distinct, nested.injEq, Bool.and_eq_true, decide_eq_true_eq, ← mergedIn_eq_self_iff elements]
    constructor
    · rintro ⟨-, h⟩
      have hn : (elements.map Prod.fst).Nodup := h ▸ (propertiesOf_spec _).1
      rw [propertiesOf_eq_self (keys_mergedIn elements ▸ hn)] at h
      exact ⟨hn, h⟩
    · rintro ⟨hn, h⟩
      rw [h, propertiesOf_eq_self hn]
      exact ⟨rfl, rfl⟩
  | array values => by rw [merged, distinct, array.injEq, allMerged_eq_self_iff values]
  | byte _ | char _ | double _ | float _ | int _ | long _ | short _ | boolean _ | string _ | enum _ _ | classRef _ =>
    iff_of_true rfl rfl

theorem mergedIn_eq_self_iff : (es : List (String × ElementValue)) → (mergedIn es = es ↔ distinctIn es = true)
  | [] => iff_of_true rfl rfl
  | (name, v) :: rest => by
    rw [mergedIn, distinctIn, cons.injEq, Prod.mk.injEq, Bool.and_eq_true, merged_eq_self_iff v, mergedIn_eq_self_iff rest]
    exact ⟨fun h => ⟨h.1.2, h.2⟩, fun h => ⟨⟨rfl, h.1⟩, h.2⟩⟩

theorem allMerged_eq_self_iff : (vs : List ElementValue) → (allMerged vs = vs ↔ allDistinct vs = true)
  | [] => iff_of_true rfl rfl
  | v :: rest => by
    rw [allMerged, allDistinct, cons.injEq, Bool.and_eq_true, merged_eq_self_iff v, allMerged_eq_self_iff rest]

end

end ElementValue

namespace AnnotationValue

theorem toNamed_eq_ok_iff {ps : List (String × AnnotationValue)} {es : List (String × ElementValue)} :
    toNamed ps = .ok es ↔ Forall₂ (SameName fun v e => toElement v = .ok e) ps es := by
  induction ps generalizing es with
  | nil => cases es <;> simp [toNamed]
  | cons p ps ih =>
    rw [toNamed, bind_eq_ok]
    cases es with
    | nil => simp [bind_eq_ok]
    | cons e es =>
      simp only [bind_eq_ok, forall₂_cons, SameName, ← ih, pure_eq_ok, Except.ok.injEq, cons.injEq]
      constructor
      · rintro ⟨_, hv, _, hr, rfl, rfl⟩
        exact ⟨⟨rfl, hv⟩, hr⟩
      · rintro ⟨⟨hn, hv⟩, hr⟩
        exact ⟨_, hv, _, hr, Prod.ext hn rfl, rfl⟩

mutual

theorem toElement_ofElement : (v : ElementValue) → toElement (ofElement v) = .ok v.merged
  | .nested descriptor elements => by
    have hs := SameName.propertiesOf (toNamed_eq_ok_iff.1 (toNamed_ofNamed elements))
    rw [ofElement, toElement, toNamed_eq_ok_iff.2 hs]
    rfl
  | .array values => by
    rw [ofElement, toElement, toElements_ofElements values]
    rfl
  | .byte _ | .char _ | .double _ | .float _ | .int _ | .long _ | .short _ | .boolean _ | .string _ | .enum _ _
  | .classRef _ => rfl

theorem toNamed_ofNamed : (es : List (String × ElementValue)) → toNamed (ofNamed es) = .ok (ElementValue.mergedIn es)
  | [] => rfl
  | (name, v) :: rest => by
    rw [ofNamed, toNamed, toElement_ofElement v, toNamed_ofNamed rest]
    rfl

theorem toElements_ofElements : (vs : List ElementValue) → toElements (ofElements vs) = .ok (ElementValue.allMerged vs)
  | [] => rfl
  | v :: rest => by
    rw [ofElements, toElements, toElement_ofElement v, toElements_ofElements rest]
    rfl

end

/-- **A value of a class file comes back from the model as it was exactly if no annotation in it, however deep, has two elements
of the same name.** -/
theorem toElement_ofElement_iff (v : ElementValue) : toElement (ofElement v) = .ok v ↔ v.distinct = true := by
  rw [toElement_ofElement, Except.ok.injEq, ElementValue.merged_eq_self_iff]

/-- An annotation with the element `v` twice. -/
def repeatedElement : ElementValue := .nested "La/M;" [("v", .int 1), ("w", .int 3), ("v", .int 2)]

/-- Of an element that is there twice, the first value is lost. -/
theorem toElement_ofElement_repeated :
    toElement (ofElement repeatedElement) = .ok (.nested "La/M;" [("v", .int 2), ("w", .int 3)]) ∧
    toElement (ofElement repeatedElement) ≠ .ok repeatedElement := by
  have h : toElement (ofElement repeatedElement) = .ok (.nested "La/M;" [("v", .int 2), ("w", .int 3)]) := by rfl
  exact ⟨h, by rw [h]; simp [repeatedElement]⟩

end AnnotationValue

end ClassDoc
