/-
  What is read of the class file of a class.
-/
import ClassDoc.Proofs.Labels.Disassembly
import ClassDoc.Proofs.Labels.Independent
import ClassDoc.Proofs.Model.ParameterNumber
import ClassDoc.Proofs.Model.Stored
namespace ClassDoc

open List

/-! ## Bootstrap methods -/

mutual

/-- How many bootstrap methods are nested in a value. -/
def Operand.depth : Operand → Nat
  | dynamic _ _ _ arguments => Operand.depthAll arguments + 1
  | array values => Operand.depthAll values
  | _ => 0

def Operand.depthAll : List Operand → Nat
  | [] => 0
  | v :: rest => max v.depth (Operand.depthAll rest)

end

/-- How many bootstrap methods are nested in an instruction, its own one if it is a call site included. -/
def Instruction.depth (i : Instruction) : Nat :=
  Operand.depthAll i.operands + if Opcode.shape i.opcode = .callSite then 1 else 0

mutual

theorem Operand.depth_ofConstant : (c : Constant) → (ofConstant c).depth = c.depth
  | .dynamic _ _ _ arguments => by
    rw [ofConstant, depth, Constant.depth, Operand.depthAll_ofConstants arguments]
  | .integer _ | .float _ | .long _ | .double _ | .string _ | .classRef _ | .methodType _ | .methodHandle _ => by
    simp [ofConstant, depth, Constant.depth]

theorem Operand.depthAll_ofConstants : (cs : List Constant) → depthAll (ofConstants cs) = Constant.depthAll cs
  | [] => by simp [ofConstants, depthAll, Constant.depthAll]
  | c :: rest => by
    rw [ofConstants, depthAll, Constant.depthAll, Operand.depth_ofConstant c, Operand.depthAll_ofConstants rest]

end

mutual

theorem Constant.loads_of_kindsOk (level : Nat) : (c : Constant) → c.kindsOk = true → c.depth ≤ level → c.loads level = true
  | .methodHandle h, hk, _ => by
    rw [Constant.loads]
    rwa [Constant.kindsOk] at hk
  | .dynamic _ _ bootstrap arguments, hk, hd => by
    rw [Constant.kindsOk, Bool.and_eq_true] at hk
    rw [Constant.depth] at hd
    cases level with
    | zero => omega
    | succ level =>
      rw [Constant.loads, Bool.and_eq_true]
      exact ⟨hk.1, Constant.allLoad_of_allKindsOk level arguments hk.2 (by omega)⟩
  | .integer _, _, _ | .float _, _, _ | .long _, _, _ | .double _, _, _ | .string _, _, _ | .classRef _, _, _
  | .methodType _, _, _ => by simp [Constant.loads]

theorem Constant.allLoad_of_allKindsOk (level : Nat) : (cs : List Constant) → Constant.allKindsOk cs = true →
    Constant.depthAll cs ≤ level → Constant.allLoad level cs = true
  | [], _, _ => by simp [Constant.allLoad]
  | c :: rest, hk, hd => by
    rw [Constant.allKindsOk, Bool.and_eq_true] at hk
    rw [Constant.depthAll] at hd
    rw [Constant.allLoad, Bool.and_eq_true]
    exact ⟨Constant.loads_of_kindsOk level c hk.1 (by omega), Constant.allLoad_of_allKindsOk level rest hk.2 (by omega)⟩

end

theorem Insn.loads_of_depth {i : Insn Label} (h : i.WellFormed) (hd : (Instruction.ofInsn i).depth ≤ PoolView.maxDepth + 1) :
    i.loads = true := by
  cases i with
  | invokeDynamic name descriptor bootstrap arguments =>
    have he : (Instruction.ofInsn (.invokeDynamic name descriptor bootstrap arguments)).depth =
        Constant.depthAll arguments + 1 := by
      rw [← Operand.depthAll_ofConstants]
      simp [Instruction.depth, Instruction.ofInsn, Instruction.operandsOf, Instruction.textOperand, Operand.depth,
        Operand.depthAll, Insn.opcode, show Opcode.shape Opcode.invokedynamic = .callSite by decide]
    rw [he] at hd
    rw [loads, Bool.and_eq_true]
    exact ⟨h.1, Constant.allLoad_of_allKindsOk _ arguments h.2 (by omega)⟩
  | ldc constant =>
    have he : (Instruction.ofInsn (.ldc constant)).depth = constant.depth := by
      rw [← Operand.depth_ofConstant]
      simp [Instruction.depth, Instruction.ofInsn, Instruction.operandsOf, Operand.depthAll, Insn.opcode,
        show Opcode.shape Opcode.ldc ≠ .callSite by decide]
    rw [he] at hd
    exact Constant.loads_of_kindsOk _ constant h hd
  | _ => rfl

/-! ## Code -/

namespace Model.Method

variable {m : Method} {p : MethodParts} {arguments : List String} {result : String} {n : Nat} {P : Pool}
  {es : List CodeEvent} {f : Frame Label} {i : Insn Label}

theorem codeOf_eq_nil (h : m.Encodes p) (hv : m.Valid arguments result) : m.codeOf p = [] ↔ m.entries = [] := by
  have hlen := h.code.length_eq
  constructor
  · intro hc
    simp only [codeOf, append_eq_nil_iff] at hc
    rw [← length_eq_zero_iff, hlen, hc.1.1.1]
    rfl
  · intro he
    have hb : m.hasBody = false := by simp [hasBody, he]
    have hp := hv.bodyParts
    simp only [hb, Bool.false_or, Bool.and_eq_true, List.isEmpty_iff, Option.isNone_iff_eq_none] at hp
    have hcode : p.code = [] := by
      rw [← List.length_eq_zero_iff, ← hlen, he]
      rfl
    have htypes : p.typeAnnotations.filter (fun a => TargetType.isCode a.2.targetType) = [] := by
      refine filter_eq_nil_iff.2 fun a ha hca => ?_
      obtain ⟨t, ht, hta⟩ := exists_of_mem_right h.typeAnnotations ha
      obtain ⟨hallowed, -, -⟩ := TypeAnnotation.validate_iff.1 (hv.typeAnnotations t ht)
      rw [hb, ← hta.targetType] at hallowed
      have hall : ∀ t : UInt8, targetsMethod false t = true → TargetType.isCode t = false :=
        Opcode.forall_of_lt (by decide +kernel)
      rw [hall _ hallowed] at hca
      cases hca
    simp [codeOf, hcode, hp.1.1, htypes, maxs, hp.1.2]

theorem mem_items {x : Item} (h : x ∈ (Body.ofEvents es).items) : ∃ e ∈ es, Body.item? e = some x :=
  mem_filterMap.1 h

theorem insn_mem_items (h : .insn i ∈ (Body.ofEvents es).items) : .insn i ∈ es := by
  obtain ⟨e, he, hi⟩ := mem_items h
  cases e <;> cases hi
  exact he

theorem frame_mem_items (h : .frame f ∈ (Body.ofEvents es).items) : .frame f ∈ es := by
  obtain ⟨e, he, hi⟩ := mem_items h
  cases e <;> cases hi
  exact he

theorem entry_of_item (h : m.Encodes p) {e : CodeEvent} {x : Item} (he : e ∈ m.codeOf p) (hx : Body.item? e = some x) :
    ∃ entry ∈ m.entries, entry.Encodes e := by
  simp only [codeOf, mem_append, mem_map] at he
  rcases he with ((he | ⟨v, -, rfl⟩) | ⟨a, -, rfl⟩) | ⟨maxs, -, rfl⟩
  · exact exists_of_mem_right h.code he
  · cases hx
  · cases hx
  · cases hx

theorem wellFormed_of_mem (h : m.Encodes p) (hv : m.Valid arguments result) (hi : .insn i ∈ m.codeOf p) :
    i.WellFormed ∧ .instruction (.ofInsn i) ∈ m.entries := by
  obtain ⟨entry, hm, he⟩ := entry_of_item h hi rfl
  cases he.1
  obtain ⟨insn, hok⟩ := hv.entries _ hm
  have hev := he.2 0
  rw [entryEvent, hok] at hev
  cases hev
  exact ⟨(Instruction.toInsn_eq_ok_iff.1 hok).2, hm⟩

theorem frame_of_mem (h : m.Encodes p) (hv : m.Valid arguments result) (hf : .frame f ∈ m.codeOf p) :
    f.wellFormed = true := by
  obtain ⟨entry, hm, he⟩ := entry_of_item h hf rfl
  cases he.1
  exact hv.entries _ hm

theorem tryCatches_codeOf (h : m.Encodes p) : (Body.ofEvents (m.codeOf p)).tryCatches.length = m.tryCatches := by
  rw [tryCatches_eq h.code]
  simp [Body.ofEvents, codeOf, filterMap_map, Function.comp_def, Body.tryCatch?, length_filterMap_eq_countP]

/-! ### As it is read -/

section

variable {layout : Layout} (h : m.Encodes p) (hv : m.Valid arguments result)
  (hf : layout.Fits P (Body.ofEvents (m.codeOf p)).items) (maxs : UInt16 × UInt16)

include h hv hf

theorem entries_raw : ∀ e ∈ ((Body.ofEvents (m.codeOf p)).raw layout maxs).parts.entries,
    ∃ entry : MethodEntry, entry.Encodes e ∧ entry.Valid := by
  intro e he
  rcases RawCode.mem_entries_parts he with ⟨t, rfl⟩ | ⟨l, rfl⟩ | ⟨line, l, rfl⟩ | ⟨f, hfm, rfl⟩ | ⟨i, hi, rfl⟩
  · exact ⟨.tryCatch t, ⟨rfl, fun _ => rfl⟩, trivial⟩
  · exact ⟨.label l, ⟨rfl, fun _ => rfl⟩, trivial⟩
  · exact ⟨.line line l, ⟨rfl, fun _ => rfl⟩, trivial⟩
  · obtain ⟨x, hx, rfl⟩ := mem_map.1 hfm
    have hw := frame_of_mem h hv (frame_mem_items (hf.frame_mem hx))
    refine ⟨.frame _, ⟨rfl, fun _ => rfl⟩, ?_⟩
    rw [MethodEntry.Valid, Frame.wellFormed_map, rawFrame, Frame.wellFormed_map, Frame.trim_of_wellFormed hw]
    exact hw
  · have hw := hf.wellFormed_raw (fun i hi => (wellFormed_of_mem h hv (insn_mem_items hi)).1) i hi
    have hok := Instruction.toInsn_eq_ok_iff.2 ⟨rfl, (Insn.wellFormed_map
      (f := RawCode.labelAt ((Body.ofEvents (m.codeOf p)).raw layout maxs).labels)).2 hw⟩
    refine ⟨.instruction (.ofInsn _), ⟨rfl, fun _ => ?_⟩, _, hok⟩
    rw [entryEvent, hok]
    rfl

omit hv hf in
theorem types_raw : ∀ a ∈ ((Body.ofEvents (m.codeOf p)).raw layout maxs).parts.types,
    ∃ t ∈ m.codeTypeAnnotations, ∃ f, (t.relabel f).Encodes a := by
  intro a ha
  obtain ⟨x, hx, rfl⟩ := mem_map.1 ha
  have hraw : ∃ b ∈ p.typeAnnotations.filter (fun a => TargetType.isCode a.2.targetType),
      x = (b.1, b.2.map layout.posOf) := by
    simp only [Body.raw, Layout.rawTypes, types_codeOf h, mem_append, mem_map, withVisibility,
      mem_filterMap] at hx
    rcases hx with ⟨_, ⟨_, ⟨b, hb, hbv⟩, rfl⟩, rfl⟩ | ⟨_, ⟨_, ⟨b, hb, hbv⟩, rfl⟩, rfl⟩
    all_goals
      split at hbv
      next hvis =>
        cases hbv
        exact ⟨b, hb, by rw [beq_iff_eq.1 hvis]⟩
      next => cases hbv
  obtain ⟨b, hb, rfl⟩ := hraw
  have hc := forall₂_types h true
  simp only [beq_true] at hc
  obtain ⟨t, ht, htb⟩ := exists_of_mem_right hc hb
  refine ⟨t, ht, fun l => RawCode.labelAt ((Body.ofEvents (m.codeOf p)).raw layout maxs).labels (layout.posOf l), ?_⟩
  rw [b.2.map_map]
  exact htb.map _

theorem stores_raw (hm : m.entries ≠ []) : m.Stores ((Body.ofEvents (m.codeOf p)).raw layout maxs).parts := by
  have hi : layout.raw ≠ [] := by
    rcases hf.laid.starts with hs | hs
    · exact map_eq_nil_iff.not.1 (ne_nil_of_mem hs.mem_raw)
    · exact absurd hs hf.pos.ne
  have he : ((Body.ofEvents (m.codeOf p)).raw layout maxs).parts.entries ≠ [] := RawCode.entries_parts_ne_nil hi
  refine ⟨entries_raw h hv hf maxs, types_raw h maxs, iff_of_false he hm, fun hn => absurd hn he, ?_⟩
  rw [RawCode.countP_entries_parts, ← tryCatches_codeOf h]
  exact length_map _

end

theorem exists_stores {code : List CodeEvent} (h : m.Encodes p) (hv : m.Valid arguments result)
    (hr : CodeReadAs P m.headerOf (m.innerEvents p n) code) : ∃ parts : CodeParts, parts.events = code ∧ m.Stores parts := by
  rw [CodeReadAs, code_innerEvents] at hr
  split at hr
  next hn =>
    have he := (codeOf_eq_nil h hv).1 (isEmpty_iff.1 hn)
    refine ⟨{}, hr.symm, by simp, by simp, by simp [he], fun _ => ⟨rfl, rfl⟩, ?_⟩
    simp [tryCatches, he]
  next hn =>
    obtain ⟨layout, maxs, hb⟩ := hr
    have hm : m.entries ≠ [] := fun he => hn (isEmpty_iff.2 ((codeOf_eq_nil h hv).2 he))
    exact ⟨_, RawCode.events_parts hb.events_eq, stores_raw h hv hb.fits maxs hm⟩

theorem checkLabels_of_codeOf (h : m.Encodes p) (hm : m.maxStack.isSome = m.maxLocals.isSome)
    (hc : WellLabelled (m.codeOf p))
    (ho : ∀ e ∈ m.innerEvents p n, e.isCode = false → e.labels = []) (ht : InsnsFit (m.codeOf p)) :
    m.checkLabels = .ok () := by
  have he : m.entries.map (MethodEntry.relabel fun l => l) = m.entries := by
    refine (map_congr_left fun entry hentry => ?_).trans (map_id _)
    obtain ⟨e, -, hee⟩ := exists_of_mem_right h.code.flip hentry
    have hid := CodeEvent.inBody?_map (fun l => l) e
    rw [CodeEvent.map_id, hee.1, Option.map_some] at hid
    exact (Option.some.inj hid).symm
  have hl : (ofEvents m.headerOf (fun l => l) (m.innerEvents p n)).checkLabels = .ok () := by
    rw [← code_innerEvents m p n] at hc ht
    exact checkLabels_ofEvents hc ho ht fun _ _ _ _ hkl => hkl
  rw [ofEvents_innerEvents h hm, he] at hl
  obtain ⟨hd, _, hok, hin⟩ := checkLabels_eq_ok.1 hl
  obtain ⟨code, hcode, hok⟩ := bind_eq_ok.1 hok
  cases hok
  refine checkLabels_eq_ok.2 ⟨hd, _, by rw [references, hcode]; rfl, fun r hmem => hin r ?_⟩
  -- the annotations on types are those outside of code and those in code
  simp only [mem_append, mem_flatMap, mem_map, TypeAnnotation.relabel_id] at hmem ⊢
  refine hmem.imp (Or.imp_right ?_) ?_
  · rintro ⟨v, hvm, hrv⟩
    exact ⟨v, ⟨v, hvm, rfl⟩, hrv⟩
  · rintro ⟨a, ha, hra⟩
    refine ⟨a, ?_, hra⟩
    cases hcode : TargetType.isCode a.targetType with
    | true => exact .inr ⟨a, mem_filter.2 ⟨ha, hcode⟩, rfl⟩
    | false => exact .inl ⟨a, mem_filter.2 ⟨ha, by rw [hcode]; rfl⟩, rfl⟩

theorem exists_stored {x : MethodHeader × List ClassEvent} (h : m.Encodes p) (hv : m.Valid arguments result)
    (hn : ∀ v, m.Reaches arguments.length v)
    (hr : MethodReadAs P m.headerOf (m.innerEvents p arguments.length) (.method x.1 :: x.2))
    (hi : IsRead (Element.code x.2)) (hl : ∀ e ∈ x.2, e.isCode = false → e.labels = []) :
    ∃ code, m.Stores code ∧ (m.stored arguments.length code).Valid arguments result ∧
      (m.headerOf, (m.stored arguments.length code).innerEvents (p.stored code) arguments.length) = x := by
  obtain ⟨arguments', result', code, hd, hrange, hcode, hx⟩ := hr
  obtain ⟨rfl, rfl⟩ : arguments' = arguments ∧ result' = result := by
    rw [headerOf, hv.descriptor] at hd
    cases hd
    exact ⟨rfl, rfl⟩
  obtain ⟨parts, rfl, hs⟩ := exists_stores h hv hcode
  rw [readBack_innerEvents h hn hs hrange, cons_append, ← codeOf_stored (n := arguments'.length) (p := p) hs] at hx
  obtain ⟨hheader, hx⟩ := List.cons.inj hx
  obtain ⟨header, events⟩ := x
  cases hheader
  obtain rfl : events = (m.stored arguments'.length parts).innerEvents (p.stored parts) arguments'.length := hx
  rw [code_innerEvents] at hi
  refine ⟨parts, hs, hv.stored hs ?_, rfl⟩
  refine checkLabels_of_codeOf (h.stored hs) ?_ hi.numberedInOrder.wellLabelled hl hi.insnsFit
  rw [stored]
  cases parts.maxs <;> rfl

/-- The method follows the rules, with the name and the parameters of `m`. -/
structure IsStored (m : Method) (x : Method × MethodParts) : Prop where
  encodes : x.1.Encodes x.2
  valid : ∃ arguments result, x.1.Valid arguments result
  reaches : ∀ v, x.1.Reaches (ClassModel.argumentsOf x.1) v
  name : x.1.name = m.name
  descriptor : x.1.descriptor = m.descriptor
  parameters : x.1.parameters = m.parameters

end Model.Method

/-! ## Classes -/

namespace ClassModel

open Model

variable {c : ClassModel} {p : ClassParts} {P : Pool} {t : Elements}

theorem exists_storedMethods (h : c.Encodes p) (hv : c.Valid) (hn : ∀ m ∈ c.methods, ∀ v, m.Reaches (argumentsOf m) v)
    (hr : (c.elementsOf p).ReadBack P t) (hl : t.LabelsInCode) (hi : ∀ m ∈ t.methods, IsRead (Element.code m.2)) :
    ∃ ms : List (Method × MethodParts), Forall₂ Method.IsStored c.methods ms ∧
      ms.map (fun m => (m.1.headerOf, m.1.innerEvents m.2 (argumentsOf m.1))) = t.methods := by
  have hmethods := hr.methods
  rw [elementsOf, forall₂_map_left_iff] at hmethods
  obtain ⟨ms, hms, hmt⟩ := forall₂_choose (Q := fun x y => Method.IsStored x.1 y)
    (f := fun m : Method × MethodParts => (m.1.headerOf, m.1.innerEvents m.2 (argumentsOf m.1))) hmethods <| by
    intro x hx y hy hxy
    have hm := (List.of_mem_zip hx).1
    have henc := List.forall₂_zip h.methods hx
    obtain ⟨arguments, result, hvm⟩ := hv.methods x.1 hm
    have hreach := hn x.1 hm
    dsimp only at hxy
    rw [argumentsOf_eq hvm] at hxy hreach
    obtain ⟨code, hs, hvs, hy⟩ := Method.exists_stored henc hvm hreach hxy (hi y hy) (hl.methods y hy)
    refine ⟨(x.1.stored arguments.length code, x.2.stored code), ⟨henc.stored hs, ⟨arguments, result, hvs⟩, fun v => ?_,
      rfl, rfl, rfl⟩, ?_⟩
    · rw [argumentsOf_eq hvs]
      exact (hreach v).stored
    · rw [argumentsOf_eq hvs]
      exact hy
  have hfst : (c.methods.zip p.methods).map Prod.fst = c.methods := map_fst_zip h.methods.length_eq.le
  refine ⟨ms, ?_, hmt⟩
  rw [← hfst, forall₂_map_left_iff]
  exact hms

/-- **What is read of a class is the stored one, with some code in its methods.** -/
theorem exists_stored (h : c.Encodes p) (hv : c.Valid) (hn : ∀ m ∈ c.methods, ∀ v, m.Reaches (argumentsOf m) v)
    (hr : (c.elementsOf p).ReadBack P t) (hl : t.LabelsInCode) (hi : ∀ m ∈ t.methods, IsRead (Element.code m.2)) :
    ∃ c' p', Encodes c' p' ∧ c'.Valid ∧ (∀ m ∈ c'.methods, ∀ v, m.Reaches (argumentsOf m) v) ∧
      c'.methods.map Method.parameters = c.methods.map Method.parameters ∧ c'.elementsOf p' = t := by
  obtain ⟨ms, hms, hmt⟩ := exists_storedMethods h hv hn hr hl hi
  have hall : ∀ x ∈ ms, ∃ m, Method.IsStored m x := fun x hx => (exists_of_mem_right hms hx).imp fun _ hm => hm.2
  have hmap : ∀ {α : Type} (f : Method → α), (∀ m x, Method.IsStored m x → f x.1 = f m) →
      (ms.map Prod.fst).map f = c.methods.map f := by
    intro α f hf
    rw [map_map, ← forall₂_eq_eq_eq, forall₂_map_left_iff, forall₂_map_right_iff]
    exact (hms.imp hf).flip
  refine ⟨c.stored (ms.map Prod.fst), p.stored (ms.map Prod.snd), h.stored ?_, hv.stored ?_ ?_, ?_, ?_, ?_⟩
  · rw [forall₂_map_left_iff, forall₂_map_right_iff, forall₂_same]
    exact fun x hx => (hall x hx).elim fun _ hm => hm.encodes
  · rw [forall_mem_map]
    exact fun x hx => (hall x hx).elim fun _ hm => hm.valid
  · exact hmap _ fun m x hm => by rw [hm.name, hm.descriptor]
  · change ∀ m ∈ ms.map Prod.fst, _
    rw [forall_mem_map]
    exact fun x hx => (hall x hx).elim fun _ hm => hm.reaches
  · exact hmap _ fun m x hm => hm.parameters
  · have hf : (c.stored (ms.map Prod.fst)).fields.zip (p.stored (ms.map Prod.snd)).fields =
        (c.fields.zip p.fields).map (Prod.map Field.stored FieldParts.stored) := zip_map
    have hm : (c.stored (ms.map Prod.fst)).methods.zip (p.stored (ms.map Prod.snd)).methods = ms :=
      (zip_of_prod rfl rfl).symm
    obtain ⟨header, events, fields, methods⟩ := t
    rw [elementsOf, hf, hm, hmt, Elements.mk.injEq]
    refine ⟨hr.header.symm, ?_, ?_, rfl⟩
    · rw [← readBack_headOf]
      exact hr.events.symm
    · have hfields : fields = _ := hr.fields
      rw [hfields, elementsOf, map_map, map_map]
      exact map_congr_left fun f _ => congrArg (Prod.mk _) (Field.readBack_innerEvents f.1 f.2).symm

theorem loads_elementsOf (h : c.Encodes p) (hv : c.Valid)
    (hd : ∀ m ∈ c.methods, ∀ i, .instruction i ∈ m.entries → i.depth ≤ PoolView.maxDepth + 1) : (c.elementsOf p).Loads := by
  simp only [Elements.Loads, elementsOf, forall_mem_map]
  intro x hx i hi
  have hm := (of_mem_zip hx).1
  obtain ⟨arguments, result, hvm⟩ := hv.methods x.1 hm
  rw [Method.code_innerEvents] at hi
  obtain ⟨hw, hi⟩ := Method.wellFormed_of_mem (List.forall₂_zip h.methods hx) hvm hi
  exact Insn.loads_of_depth hw (hd x.1 hm _ hi)

end ClassModel

/-! ## Class files -/

variable {c : ClassModel} {bytes : Bytes}

theorem writeModel_eq_ok : writeModel c = .ok bytes ↔ ∃ es, c.events = .ok es ∧ writeEvents es = .ok bytes := by
  rw [writeModel, bind_eq_ok]
  constructor
  · rintro ⟨w, hw, hb⟩
    obtain ⟨ho, hf⟩ := Trace.feed_eq_ok.1 hw
    refine ⟨_, by rw [ClassModel.events, Trace.events, ho]; rfl, ?_⟩
    rw [writeEvents, hf]
    exact hb
  · rintro ⟨es, he, hb⟩
    obtain ⟨_, ho, he⟩ := bind_eq_ok.1 he
    cases he
    rw [writeEvents] at hb
    split at hb
    next w hw => exact ⟨w, Trace.feed_eq_ok.2 ⟨ho, hw⟩, hb⟩
    next => cases hb

theorem ClassModel.exists_readEvents (hv : c.Valid) (hr : c.Distinct) (hm : c.version.major ≤ maxMajor)
    (hd : ∀ m ∈ c.methods, ∀ i, .instruction i ∈ m.entries → i.depth ≤ PoolView.maxDepth + 1)
    (hw : writeModel c = .ok bytes) : ∃ c' p, Encodes c' p ∧ c'.Valid ∧
      (∀ m ∈ c'.methods, ∀ v, m.Reaches (argumentsOf m) v) ∧
      c'.methods.map Model.Method.parameters = c.methods.map Model.Method.parameters ∧
      readEvents bytes = .ok (c'.elementsOf p).flatten := by
  obtain ⟨p, hp⟩ := exists_encodes_of_distinct hv hr
  obtain ⟨es, he, hw⟩ := writeModel_eq_ok.1 hw
  have hreach := reaches_of_events hv he
  have hes := events_eq (emits hp hv hreach)
  rw [he, ← flatten_elementsOf] at hes
  cases hes
  obtain ⟨_, P, t, -, hback, hread⟩ := exists_readBack (proper_elementsOf hp hv) (loads_elementsOf hp hv hd) hm hw
  obtain ⟨t', hflat, hproper, hlabels, hcode⟩ := exists_elements hread
  obtain rfl := Elements.flatten_inj hback.proper hproper hflat
  obtain ⟨c', p', hp', hv', hn', hparameters, rfl⟩ := exists_stored hp hv hreach hback hlabels hcode
  exact ⟨c', p', hp', hv', hn', hparameters, hread⟩

/-- **Something is read of the class file of a class if and only if the numbers of its annotated parameters have 8 bits, and
that follows the rules.** -/
theorem ClassModel.exists_readModel_iff (hv : c.Valid) (hr : c.Distinct) (hm : c.version.major ≤ maxMajor)
    (hd : ∀ m ∈ c.methods, ∀ i, .instruction i ∈ m.entries → i.depth ≤ PoolView.maxDepth + 1)
    (hw : writeModel c = .ok bytes) :
    ((∃ c', (readModel bytes).value = .ok c') ↔ ∀ m ∈ c.methods, m.AnnotatesLow) ∧
      ∀ c', (readModel bytes).value = .ok c' → c'.Valid := by
  obtain ⟨c₁, p, hp, hv₁, hn, hparameters, hread⟩ := exists_readEvents hv hr hm hd hw
  have hbuilds : ∀ c', (readModel bytes).value = .ok c' ↔ ModelBuilder.Builds (c₁.elementsOf p) c' := by
    intro c'
    rw [← buildModel_flatten (proper_elementsOf hp hv₁) (labelsInCode_elementsOf hp hv₁), readModel_eq_ok, hread]
    simp
  have hlow : ∀ c : ClassModel, (∀ m ∈ c.methods, m.AnnotatesLow) ↔ ∀ ps ∈ c.methods.map Model.Method.parameters,
      ∀ (index : Nat) (q : Model.Parameter), ps[index]? = some q → q.annotations ≠ [] → index < 256 := fun c => by
    rw [forall_mem_map]
    rfl
  refine ⟨?_, fun c' hc' => ?_⟩
  · simp only [hbuilds, exists_builds_iff hp hv₁ hn, hlow, hparameters]
  · have ha := (exists_builds_iff hp hv₁ hn).1 ⟨c', (hbuilds c').1 hc'⟩
    have hnormal := (hbuilds c₁.normal).2 (builds_of_annotatesLow hp hv₁ ha)
    rw [hnormal] at hc'
    cases hc'
    exact hv₁.normal fun m hmem => (labels_of_readModel hnormal m hmem).1

end ClassDoc
