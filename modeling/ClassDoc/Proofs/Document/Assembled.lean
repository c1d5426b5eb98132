/-
  What is assembled can be disassembled.
-/
import ClassDoc.Proofs.ClassFile.RoundTrip
import ClassDoc.Proofs.Document.Reading
import ClassDoc.Proofs.Model.ReadBack
namespace ClassDoc

open List

theorem assemble_eq_ok {root : Node} {bytes : Bytes} :
    assemble root = .ok bytes ↔ ∃ c, ClassModel.ofNode root = .ok c ∧ writeModel c = .ok bytes := by
  simp only [assemble, assembleClass, bind_eq_ok, within_eq_ok, pure_eq_ok]
  constructor
  · rintro ⟨_, ⟨c, hc, b, hb, ⟨⟩⟩, ⟨⟩⟩
    exact ⟨c, hc, hb⟩
  · rintro ⟨c, hc, hb⟩
    exact ⟨_, ⟨c, hc, bytes, hb, rfl⟩, rfl⟩

/-! ## A loop -/

namespace Loop

open Model

def insns : List (Insn Label) := [.var Opcode.iload 0, .jump Opcode.ifeq start, .simple Opcode.vreturn]

def method : Method where
  name := "m"
  descriptor := "(I)V"
  access := 8
  maxStack := some 1
  maxLocals := some 1
  entries := .label start :: .line 3 start :: insns.map fun i => .instruction (.ofInsn i)

def model : ClassModel where
  name := "A"
  access := 33
  version := ⟨52, 0⟩
  sourceFile := some "A.java"
  methods := [method]

theorem wellFormed_insns : ∀ i ∈ insns, i.WellFormed := by
  simp only [insns, forall_mem_cons]
  exact ⟨show Opcode.isVariable Opcode.iload = true by decide, show Opcode.isJump Opcode.ifeq = true by decide,
    ⟨by decide +kernel, by decide⟩, by simp⟩

theorem depth_insns : ∀ i ∈ insns, (Instruction.ofInsn i).depth = 0 := by decide +kernel

theorem instruction_mem_entries {i : Instruction} (h : .instruction i ∈ method.entries) :
    ∃ insn ∈ insns, i = .ofInsn insn := by
  simp only [method, mem_cons, reduceCtorEq, false_or, mem_map, MethodEntry.instruction.injEq] at h
  obtain ⟨insn, hi, rfl⟩ := h
  exact ⟨insn, hi, rfl⟩

theorem valid_model : model.Valid := by decide +kernel

theorem ofNode_model (options : DocumentOptions) : ClassModel.ofNode (model.toNode options) = .ok model :=
  ClassModel.ofNode_toNode valid_model (by decide) (by decide) ⟨⟨rfl, by decide, by decide, by decide⟩, by decide⟩ options

theorem events_model : model.events = .ok form.events := by
  have hi : List.Forall₂ MethodEntry.Encodes (insns.map fun i => .instruction (.ofInsn i)) (insns.map .insn) := by
    rw [forall₂_map_left_iff, forall₂_map_right_iff, forall₂_same]
    refine fun i hi => ⟨rfl, fun index => ?_⟩
    rw [Method.entryEvent, Instruction.toInsn_eq_ok_iff.2 ⟨rfl, wellFormed_insns i hi⟩]
    rfl
  have h : model.Encodes ⟨[], [], [], [], [⟨[], [], [], none, .label start :: .lineNumber 3 start :: insns.map .insn⟩]⟩ :=
    ⟨.nil, .nil, .nil, .nil, .cons ⟨.nil, .nil, .nil, .nil, .cons ⟨rfl, fun _ => rfl⟩ (.cons ⟨rfl, fun _ => rfl⟩ hi)⟩ .nil⟩
  have hr : ∀ m ∈ model.methods, ∀ v, m.Reaches (ClassModel.argumentsOf m) v := by
    simp only [model, forall_mem_singleton]
    intro v index q hq
    cases hq
  rw [ClassModel.events_eq (ClassModel.emits h valid_model hr)]
  rfl

theorem exists_assemble (options : DocumentOptions) : ∃ bytes, assemble (model.toNode options) = .ok bytes := by
  obtain ⟨bytes, h⟩ := exists_writeEvents
  exact ⟨bytes, assemble_eq_ok.2 ⟨model, ofNode_model options, writeModel_eq_ok.2 ⟨_, events_model, h⟩⟩⟩

end Loop

/-- **The class file of a document has a document again, if its version is known and bootstrap methods are not nested too deep,
if and only if no parameter with a number of more than 8 bits is annotated.** -/
theorem exists_disassemble_iff (options : DocumentOptions) {root : Node} {c : ClassModel} {bytes : Bytes}
    (hc : ClassModel.ofNode root = .ok c) (ha : assemble root = .ok bytes) (hm : c.version.major ≤ maxMajor)
    (hd : ∀ m ∈ c.methods, ∀ i, .instruction i ∈ m.entries → i.depth ≤ PoolView.maxDepth + 1) :
    (∃ document, (disassemble options bytes).value = .ok document) ↔ ∀ m ∈ c.methods, m.AnnotatesLow := by
  obtain ⟨c₀, hc₀, hw⟩ := assemble_eq_ok.1 ha
  rw [hc] at hc₀
  cases hc₀
  have hv := (ClassModel.read_of_ofNode hc).2
  obtain ⟨hiff, hvalid⟩ := ClassModel.exists_readModel_iff hv (ClassModel.distinct_of_ofNode hc) hm hd hw
  rw [← hiff]
  constructor
  · rintro ⟨document, h⟩
    rw [disassemble_value] at h
    obtain ⟨c', hc', -⟩ := bind_eq_ok.1 h
    exact ⟨c', hc'⟩
  · rintro ⟨c', hc'⟩
    refine ⟨c'.toNode options, ?_⟩
    rw [disassemble_value, hc', ok_bind, ClassModel.validate_iff.2 (hvalid c' hc'), ok_bind]

theorem exists_disassemble_loop : ∃ bytes, assemble (Loop.model.toNode ⟨true, true⟩) = .ok bytes ∧
    ∃ document, (disassemble ⟨false, false⟩ bytes).value = .ok document := by
  obtain ⟨bytes, h⟩ := Loop.exists_assemble ⟨true, true⟩
  refine ⟨bytes, h, (exists_disassemble_iff _ (Loop.ofNode_model _) h (by decide) ?_).2 ?_⟩
  · simp only [Loop.model, forall_mem_singleton]
    intro i hi
    obtain ⟨insn, hinsn, rfl⟩ := Loop.instruction_mem_entries hi
    rw [Loop.depth_insns insn hinsn]
    exact Nat.zero_le _
  · simp [Loop.model, Loop.method, Model.Method.AnnotatesLow]

/-! ## A parameter with a large number -/

namespace Crowded

open Model

variable (n : Nat) {q : Parameter}

/-- The descriptor of a method with more than `n` arguments. -/
def descriptor : String := String.ofList ('(' :: (List.replicate (n + 1) 'I' ++ [')', 'V']))

def mark : Model.Annotation := ⟨"La/M;", .runtime, []⟩

/-- Only the last argument is annotated, and only it can be. -/
def method : Method where
  name := "m"
  descriptor := descriptor n
  access := 0x0401
  parameters := List.replicate n { name := none } ++ [{ annotations := [mark] }]
  visibleAnnotable := some 1

def model : ClassModel where
  name := "A"
  access := 0x0421
  version := ⟨52, 0⟩
  methods := [method n]

/-! What it is in a class file. -/

def header : MethodHeader := ⟨0x0401, "m", descriptor n, []⟩

def events : List ClassEvent := [.annotableParameterCount 1 true, .annotateParameter 0 true ⟨"La/M;", []⟩]

def elements : Elements := ⟨⟨⟨52, 0⟩, 0x0421, "A", none, []⟩, [], [], [(header n, events)]⟩

variable {n}

theorem splitMethod_descriptor : Descriptor.splitMethod (descriptor n) = .ok (List.replicate (n + 1) "I", "V") := by
  refine Descriptor.splitMethod_eq_ok_iff.2 ⟨?_, fun f hf => ?_, .inl rfl⟩
  · simp [← String.toList_inj, descriptor, String.toList_join, flatMap_replicate]
  · rw [eq_of_mem_replicate hf]
    exact .primitive (by decide)

theorem annotations_of_mem (h : q ∈ (method n).parameters) :
    q.name = none ∧ q.access = 0 ∧ ∀ a ∈ q.annotations, a = mark := by
  rw [method, mem_append, mem_replicate, mem_singleton] at h
  rcases h with ⟨-, rfl⟩ | rfl <;> simp

theorem index_of_annotated {index : Nat} (h : (method n).parameters[index]? = some q) (hq : q.annotations ≠ []) :
    index = n := by
  by_contra hne
  have hlt : index < n := by
    have := (List.getElem?_eq_some_iff.1 h).1
    simp only [method, List.length_append, List.length_replicate, List.length_singleton] at this
    omega
  rw [method, getElem?_append_left (by simpa using hlt), getElem?_replicate, if_pos hlt] at h
  cases h
  exact hq rfl

theorem valid_method : (method n).Valid (List.replicate (n + 1) "I") "V" where
  visibility := show Access.oneVisibility 0x0401 = true by decide
  descriptor := splitMethod_descriptor
  abstractAccess := show (!(Access.has 0x0401 Access.abstract && Access.has 0x0401 Method.notAbstract)) = true by decide
  body := show (!Access.has 0x0401 (Access.abstract ||| Access.native)) = false by decide
  bodyParts := rfl
  maxs := rfl
  parameters := by simp [method]
  annotable v := by
    refine Method.checkAnnotable_eq_ok.2 fun count hcount => ?_
    cases v with
    | classFile => cases hcount
    | runtime =>
      cases hcount
      simp [method]
  annotations := by simp [method]
  parameterAnnotations q hq a ha := by
    rw [(annotations_of_mem hq).2.2 a ha]
    rfl
  typeAnnotations := by simp [method]
  catches := by simp [method]
  default := by simp [method]
  labels := Model.Method.checkLabels_eq_ok.2 ⟨nodup_nil, _, rfl, by simp [method]⟩
  entries := by simp [method]

theorem valid_model : (model n).Valid where
  visibility := show Access.oneVisibility 0x0421 = true by decide
  interfaceAbstract := show (!Access.has 0x0421 Access.interface || Access.has 0x0421 Access.abstract) = true by decide
  interfaceFinal := show (!Access.has 0x0421 Access.interface || !Access.has 0x0421 Access.final) = true by decide
  moduleFlag := rfl
  annotations := by simp [model]
  typeAnnotations := by simp [model]
  components := by simp [model]
  componentNames := by simp [model]
  fields := by simp [model]
  fieldNames := by simp [model]
  methods := by
    simp only [model, forall_mem_singleton]
    exact ⟨_, _, valid_method⟩
  methodNames := nodup_singleton _

theorem ofNode_model (options : DocumentOptions) : ClassModel.ofNode ((model 256).toNode options) = .ok (model 256) := by
  have h : (∀ n ∈ (model 256).escapedNames, n ≠ "") ∧ ∀ m ∈ (model 256).methods, m.distinct = true := by decide +kernel
  refine ClassModel.ofNode_toNode valid_model h.1 (by decide) ⟨⟨rfl, by decide, by decide, h.2⟩, ?_⟩ options
  simp only [model, forall_mem_singleton, method, length_append, length_replicate, length_singleton]
  decide

theorem entries_model : ∀ m ∈ (model n).methods, m.entries = [] := by simp [model, method]

theorem not_annotatesLow (hn : 255 < n) : ¬ ∀ m ∈ (model n).methods, m.AnnotatesLow := by
  intro h
  have hlast : (method n).parameters[n]? = some { annotations := [mark] } := by simp [method]
  have := h (method n) (mem_singleton.2 rfl) n _ hlast (by simp)
  omega

def parts (n : Nat) : MethodParts := ⟨[], [], List.replicate n [] ++ [[(true, ⟨"La/M;", []⟩)]], none, []⟩

theorem encodes_method : (method n).Encodes (parts n) := by
  refine ⟨.nil, .nil, rel_append ?_ (.cons (.cons ⟨rfl, rfl⟩ .nil) .nil), .nil, .nil⟩
  induction n with
  | zero => exact .nil
  | succ n ih => exact .cons .nil ih

theorem annotationsFor_parts (v : Visibility) :
    Method.annotationsFor (parts n) v = if v.isRuntime then [(n, ⟨"La/M;", []⟩)] else [] := by
  have hz : ((List.replicate n ([] : List (Bool × Annotation))).zipIdx.flatMap fun x =>
      (x.1.filter fun a => a.1 == v.isRuntime).map fun a => (x.2, a.2)) = [] := by
    refine flatMap_eq_nil_iff.2 fun x hx => ?_
    rw [eq_of_mem_replicate (fst_mem_of_mem_zipIdx hx)]
    rfl
  rw [Method.annotationsFor, parts, zipIdx_append, flatMap_append, hz]
  cases v <;> simp [Visibility.isRuntime]

theorem events_model : (model n).events = .ok (elements n).flatten := by
  have h : (model n).Encodes ⟨[], [], [], [], [parts n]⟩ := ⟨.nil, .nil, .nil, .nil, .cons encodes_method .nil⟩
  have hn : (method n).namesParameters = false := by
    rw [Method.namesParameters, any_eq_false]
    intro q hq
    obtain ⟨hname, haccess, -⟩ := annotations_of_mem hq
    simp [hname, haccess]
  have hs : (method n).skipped (n + 1) .runtime = n := rfl
  have hinner : (method n).innerEvents (parts n) (n + 1) = events := by
    simp only [Method.innerEvents, Method.headOf, Method.leadOf, Method.parameterEvents_eq, hn, annotationsFor_parts,
      Visibility.isRuntime, if_true, Bool.false_eq_true, if_false, map_cons, hs, Nat.sub_self]
    rfl
  have ha : ClassModel.argumentsOf (method n) = n + 1 := by
    rw [ClassModel.argumentsOf_eq valid_method, length_replicate]
  have he : (model n).elementsOf ⟨[], [], [], [], [parts n]⟩ = elements n := by
    simp only [ClassModel.elementsOf, model, zip_cons_cons, map_cons, ha, hinner]
    rfl
  rw [ClassModel.events_eq (ClassModel.emits h valid_model ?_), ← ClassModel.flatten_elementsOf, he]
  simp only [model, forall_mem_singleton, ha]
  rintro v index q hq ⟨a, ham, hv⟩
  obtain rfl := index_of_annotated hq (ne_nil_of_mem ham)
  obtain rfl : v = .runtime := by
    rw [← hv, (annotations_of_mem (mem_of_getElem? hq)).2.2 a ham]
    rfl
  rw [hs, Nat.sub_self]
  decide

theorem proper_elements : (elements n).Proper := by
  refine ⟨by simp [elements], by simp [elements], ?_⟩
  simp only [elements, forall_mem_singleton]
  decide

set_option maxRecDepth 20000 in
theorem exists_writeEvents : ∃ bytes, writeEvents (elements 256).flatten = .ok bytes := by
  obtain ⟨b, p, h, hb⟩ : ∃ b p, (elements 256).putAll {} = .ok b p ∧ (b.encode p).isOk = true := by
    refine exists_of_succeeds (p := fun (b : ElementBytes) p => (b.encode p).isOk) ?_
    simp only [Elements.putAll, elements, mapM_cons, methodBytes, header, splitMethod_descriptor]
    cbv
  obtain ⟨bytes, hb⟩ := exists_eq_ok.2 hb
  exact ⟨bytes, (writeEvents_flatten proper_elements).2 ⟨b, p, h, hb⟩⟩

end Crowded

/-- **A document is assembled, but not disassembled again, if its last parameter of 257 is annotated.** -/
theorem refused_crowded : ∃ c bytes, ClassModel.ofNode ((Crowded.model 256).toNode ⟨true, true⟩) = .ok c ∧
    c.version.major ≤ maxMajor ∧ (∀ m ∈ c.methods, m.entries = []) ∧
    assemble ((Crowded.model 256).toNode ⟨true, true⟩) = .ok bytes ∧
    ∀ options document, (disassemble options bytes).value ≠ .ok document := by
  have hc := Crowded.ofNode_model ⟨true, true⟩
  obtain ⟨bytes, hw⟩ := Crowded.exists_writeEvents
  have hw := writeModel_eq_ok.2 ⟨_, Crowded.events_model, hw⟩
  refine ⟨_, bytes, hc, by decide, Crowded.entries_model, assemble_eq_ok.2 ⟨_, hc, hw⟩, fun options document h => ?_⟩
  rw [disassemble_value] at h
  obtain ⟨c', hc', -⟩ := bind_eq_ok.1 h
  refine Crowded.not_annotatesLow (by decide) ((ClassModel.exists_readModel_iff Crowded.valid_model
    (ClassModel.distinct_of_ofNode hc) (by decide) (fun m hm i hi => ?_) hw).1.1 ⟨c', hc'⟩)
  rw [Crowded.entries_model m hm] at hi
  cases hi

end ClassDoc
