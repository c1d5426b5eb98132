/-
  Method bodies read back from their nodes.
-/
import ClassDoc.Document.Body
import ClassDoc.Proofs.Document.Value
import ClassDoc.Proofs.Model.Instruction
import ClassDoc.Proofs.Model.Names
import ClassDoc.Proofs.Model.Validate
namespace ClassDoc

open List

/-! ## Operands -/

mutual

theorem Operand.handlesOk_ofConstant : (c : Constant) → (Operand.ofConstant c).handlesOk = c.kindsOk
  | .dynamic _ _ bootstrap arguments =>
    congrArg (Handle.isKind bootstrap.kind && ·) (Operand.allHandlesOk_ofConstants arguments)
  | .integer _ | .float _ | .long _ | .double _ | .string _ | .classRef _ | .methodType _ | .methodHandle _ => rfl

theorem Operand.allHandlesOk_ofConstants : (cs : List Constant) →
    Operand.allHandlesOk (Operand.ofConstants cs) = Constant.allKindsOk cs
  | [] => rfl
  | c :: rest => congrArg₂ (· && ·) (Operand.handlesOk_ofConstant c) (Operand.allHandlesOk_ofConstants rest)

end

/-- Numbers are compared faster than names. -/
def Opcode.nameKey (name : String) : Nat := name.toList.foldl (fun n c => 128 * n + c.toNat) 0

theorem Opcode.nodup_mnemonics : Opcode.mnemonics.toList.Nodup :=
  .of_map Opcode.nameKey (by decide +kernel)

theorem Opcode.ofName?_mnemonic {op : Opcode} (h : (Opcode.name? op).isSome = true) :
    Opcode.ofName? op.mnemonic = some op := by
  obtain ⟨name, hn⟩ := Option.isSome_iff_exists.1 h
  rw [Opcode.mnemonic, hn, Option.getD_some]
  unfold Opcode.name? at hn
  split at hn
  next => cases hn
  next hc =>
    have hi : Opcode.mnemonics.findIdx? (· == name) = some op.toNat := by
      obtain ⟨hlt, hget⟩ := Array.getElem?_eq_some_iff.1 hn
      refine Array.findIdx?_eq_some_iff_getElem.2 ⟨hlt, beq_iff_eq.2 hget, fun j hj he => ?_⟩
      have hjlt : j < Opcode.mnemonics.toList.length := hj.trans hlt
      have hsame : Opcode.mnemonics.toList[j] = Opcode.mnemonics.toList[op.toNat] := by simpa [hget] using he
      exact hj.ne (Opcode.nodup_mnemonics.getElem_inj_iff.1 hsame)
    rw [Opcode.ofName?, hi]
    simp only [UInt8.ofNat_toNat, if_neg hc]

namespace Instruction

variable {i : Instruction} {insn : Insn Label} {v : Operand}

theorem handlesOk_of_toInsn (h : i.toInsn = .ok insn) : ∀ v ∈ i.operands, v.handlesOk = true := by
  obtain ⟨rfl, hw⟩ := toInsn_eq_ok_iff.1 h
  rw [← Operand.allHandlesOk_iff]
  have hmap : ∀ {α : Type} (f : α → Operand) (xs : List α), (∀ x, (f x).handlesOk = true) →
      Operand.allHandlesOk (xs.map f) = true := fun f xs hf =>
    Operand.allHandlesOk_iff.2 (forall_mem_map.2 fun x _ => hf x)
  cases insn with
  | ldc constant =>
    simpa [ofInsn, operandsOf, Operand.allHandlesOk, Operand.handlesOk_ofConstant, Insn.WellFormed] using hw
  | invokeDynamic name descriptor bootstrap arguments =>
    simpa [ofInsn, operandsOf, textOperand, Operand.allHandlesOk, Operand.handlesOk, Operand.allHandlesOk_ofConstants,
      Insn.WellFormed] using hw
  | tableSwitch low high default targets =>
    have ht := hmap Operand.label targets fun _ => rfl
    simp [ofInsn, operandsOf, Operand.allHandlesOk, Operand.handlesOk, ht]
  | lookupSwitch default pairs =>
    have hk := hmap (fun p : Int32 × Label => Operand.int p.1) pairs fun _ => rfl
    have ht := hmap (fun p : Int32 × Label => Operand.label p.2) pairs fun _ => rfl
    simp [ofInsn, operandsOf, Operand.allHandlesOk, Operand.handlesOk, hk, ht]
  | _ => rfl

/-- **An instruction with the operands it takes reads back from its node, with a comment or without.** -/
theorem ofNode_toNode (h : i.toInsn = .ok insn) (comments : Bool) : ofNode (i.toNode comments) = .ok i := by
  have ho : Opcode.ofName? i.mnemonic = some i.opcode := by
    rw [mnemonic]
    apply Opcode.ofName?_mnemonic
    by_contra hn
    rw [Bool.not_eq_true, Option.isSome_eq_false_iff, Option.isNone_iff_eq_none] at hn
    rw [toInsn, hn] at h
    cases h
  have he : (i.toNode comments).elements = i.operands.map Value.toNode := by
    have hm : (i.operands.map Value.toNode).filter (fun child => !child.isMetadata) = i.operands.map Value.toNode := by
      rw [filter_eq_self]
      intro n hn
      obtain ⟨v, -, rfl⟩ := mem_map.1 hn
      simp [Value.isMetadata_of_kind]
    rw [Node.elements, toNode, filter_append, hm]
    cases comments <;> rfl
  rw [ofNode, Value.fromChildren_eq_ok he (handlesOk_of_toInsn h)]
  simp [toNode, ho]

end Instruction

/-! ## Frames -/

namespace VerificationType

theorem ofNode_toNode {t : VerificationType Label} (h : ∀ n ∈ t.pathNames, Name.hasSegments n = true) (parent : Node) :
    ofNode parent t.toNode = .ok t := by
  cases t with
  | object name => simp [toNode, ofNode, h name (by simp [pathNames])]
  | uninitialized label => simp [toNode, ofNode]
  | _ => rfl

theorem isMetadata_toNode (t : VerificationType Label) : t.toNode.isMetadata = false := by
  cases t <;> rfl

theorem mapM_ofNode {types : List (VerificationType Label)} {node : Node} (hc : node.children = types.map toNode)
    (h : ∀ t ∈ types, ∀ n ∈ t.pathNames, Name.hasSegments n = true) :
    node.elements.mapM (ofNode node) = .ok types := by
  rw [Node.elements_eq_children, hc]
  · exact mapM_map_eq_ok fun t ht => ofNode_toNode (h t ht) node
  · intro child hm
    rw [hc] at hm
    obtain ⟨t, -, rfl⟩ := mem_map.1 hm
    exact isMetadata_toNode t

end VerificationType

namespace Frame

theorem kind_ofNode {node : Node} {kind : FrameKind} (h : ∀ name, node.attr? name = Attr.lookup kind.attributes name) :
    FrameKind.ofNode node = .ok kind := by
  have hk := h "kind"
  have hc := h "count"
  cases kind <;> simp_all [FrameKind.attributes, FrameKind.text, FrameKind.ofNode]

/-- **A frame reads back from its node.** -/
theorem ofNode_toNode {f : Frame Label}
    (h : ∀ n ∈ (f.locals ++ f.stack).flatMap VerificationType.pathNames, Name.hasSegments n = true) :
    ofNode f.toNode = .ok f := by
  have hl : ∀ t ∈ f.locals, ∀ n ∈ t.pathNames, Name.hasSegments n = true := fun t ht n hn =>
    h n (mem_flatMap.2 ⟨t, by simp [ht], hn⟩)
  have hs : ∀ t ∈ f.stack, ∀ n ∈ t.pathNames, Name.hasSegments n = true := fun t ht n hn =>
    h n (mem_flatMap.2 ⟨t, by simp [ht], hn⟩)
  have hp : f.toNode.parts (readPart f.toNode) = .ok [.locals f.locals, .stack f.stack] := by
    apply Node.parts_eq_ok
    rw [Node.elements_eq_children (by simp [toNode, Node.isMetadata, Node.isMetadataKind])]
    refine .cons ?_ (.cons ?_ (.nil _))
    · simp only [readPart]
      rw [VerificationType.mapM_ofNode rfl hl]; rfl
    · simp only [readPart]
      rw [VerificationType.mapM_ofNode rfl hs]; rfl
  have h1 : ([.locals f.locals, .stack f.stack].filterMap Part.locals?).flatten = f.locals :=
    flatten_singleton
  have h2 : ([.locals f.locals, .stack f.stack].filterMap Part.stack?).flatten = f.stack :=
    flatten_singleton
  rw [ofNode, kind_ofNode fun _ => rfl, ok_bind, hp, ok_bind, h1, h2]
  rfl

end Frame

/-! ## Entries -/

namespace MethodEntry

theorem isMetadata_toNode (comments : Bool) (e : MethodEntry) : (e.toNode comments).isMetadata = false := by
  cases e <;> rfl

/-- **An entry that follows the rules reads back from its node.** -/
theorem ofNode_toNode {e : MethodEntry} (hv : e.Valid)
    (h : ∀ n ∈ e.pathNames, Name.hasSegments n = true) (comments : Bool) (body : Node) :
    ofNode body (e.toNode comments) = .ok e := by
  cases e with
  | instruction i =>
    obtain ⟨insn, hi⟩ := hv
    have := Instruction.ofNode_toNode hi comments
    simp only [toNode, ofNode, Instruction.toNode] at this ⊢
    rw [this]; rfl
  | label l => simp [toNode, ofNode]
  | tryCatch t =>
    have hc : ∀ n ∈ t.catchType, Name.hasSegments n = true := fun n hm => h n (by simpa [pathNames] using hm)
    simp [toNode, ofNode, Attr.className?_eq_ok hc]
  | frame f =>
    have := Frame.ofNode_toNode (f := f) h
    simp only [toNode, ofNode, Frame.toNode] at this ⊢
    rw [this]; rfl
  | line number l => simp [toNode, ofNode]

theorem ofBody_eq_ok {entries : List MethodEntry} {comments : Bool} {body : Node}
    (hc : body.children = entries.map (toNode comments))
    (hv : ∀ e ∈ entries, e.Valid)
    (h : ∀ e ∈ entries, ∀ n ∈ e.pathNames, Name.hasSegments n = true) : ofBody body = .ok entries := by
  rw [ofBody, Node.elements_eq_children, hc]
  · refine mapM_zipIdx_map_eq_ok (fun e he index => ?_) 0
    exact within_eq_ok.2 (ofNode_toNode (hv e he) (h e he) comments body)
  · intro child hm
    rw [hc] at hm
    obtain ⟨e, -, rfl⟩ := mem_map.1 hm
    exact isMetadata_toNode comments e

end MethodEntry

end ClassDoc
