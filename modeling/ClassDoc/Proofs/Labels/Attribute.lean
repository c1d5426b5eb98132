/-
  Putting entries into a pool, and attributes without labels: nothing of it fails because of a label.
-/
import ClassDoc.ClassFile.Attributes
import ClassDoc.Proofs.Labels.Safe
namespace ClassDoc.LabelSafe

/-! ## Numbers and entries -/

variable (name : String) (n : Nat)

@[grind ←] theorem count1 : LabelSafe (Bytes.count1 n) := by grind [Bytes.count1]

@[grind ←] theorem count2 : LabelSafe (Bytes.count2 n) := by grind [Bytes.count2]

@[grind ←] theorem count4 : LabelSafe (Bytes.count4 n) := by grind [Bytes.count4]

@[grind ←] theorem put (e : PoolEntry) : LabelSafe (Pool.put e) := by
  rintro f ⟨s, t, h⟩
  unfold Pool.put at h
  grind

@[grind ←] theorem text (t : JavaText) : LabelSafe (Pool.text t) := put _

@[grind ←] theorem utf8 (s : String) : LabelSafe (Pool.utf8 s) := put _

@[grind ←] theorem optionalUtf8 (s : Option String) : LabelSafe (Pool.optionalUtf8 s) := by
  cases s <;> grind [Pool.optionalUtf8]

@[grind ←] theorem classRef : LabelSafe (Pool.classRef name) := by grind [Pool.classRef]

@[grind ←] theorem optionalClass (name : Option String) : LabelSafe (Pool.optionalClass name) := by
  cases name <;> grind [Pool.optionalClass]

@[grind ←] theorem module : LabelSafe (Pool.module name) := by grind [Pool.module]

@[grind ←] theorem package : LabelSafe (Pool.package name) := by grind [Pool.package]

@[grind ←] theorem nameAndType (descriptor : String) : LabelSafe (Pool.nameAndType name descriptor) := by
  grind [Pool.nameAndType]

@[grind ←] theorem fieldRef (owner name descriptor : String) : LabelSafe (Pool.fieldRef owner name descriptor) := by
  grind [Pool.fieldRef]

@[grind ←] theorem methodRef (owner name descriptor : String) (interface : Bool) :
    LabelSafe (Pool.methodRef owner name descriptor interface) := by
  grind [Pool.methodRef]

@[grind ←] theorem methodHandle (h : Handle) : LabelSafe (Pool.methodHandle h) := by grind [Pool.methodHandle]

@[grind ←] theorem putMethod (method : BootstrapMethod) : LabelSafe (Pool.putMethod method) := by
  rintro f ⟨s, t, h⟩
  unfold Pool.putMethod at h
  grind

mutual

@[grind ←] theorem constant (c : Constant) : LabelSafe (Pool.constant c) := by
  cases c with
  | dynamic name descriptor bootstrap arguments =>
    have h := constants arguments
    grind [Pool.constant]
  | _ => grind [Pool.constant]

@[grind ←] theorem constants (cs : List Constant) : LabelSafe (Pool.constants cs) := by
  cases cs with
  | nil => grind [Pool.constants]
  | cons c rest =>
    have h := constant c
    have hs := constants rest
    grind [Pool.constants]

end

@[grind ←] theorem invokeDynamic (descriptor : String) (bootstrap : Handle) (arguments : List Constant) :
    LabelSafe (Pool.invokeDynamic name descriptor bootstrap arguments) := by
  grind [Pool.invokeDynamic]

@[grind ←] theorem indexBytes {put : PoolM UInt16} (h : LabelSafe put) : LabelSafe (indexBytes put) := by
  grind [ClassDoc.indexBytes]

@[grind ←] theorem encodeList {α : Type} {element : α → PoolM Bytes} {xs : List α} (h : ∀ a ∈ xs, LabelSafe (element a)) :
    LabelSafe (encodeList element xs) := by
  grind [ClassDoc.encodeList]

/-! ## Attributes -/

variable {offsets : Offsets} {body : PoolM Bytes}

@[grind ←] theorem make (h : LabelSafe body) : LabelSafe (Attribute.make name body) := by
  grind [Attribute.make]

@[grind ←] theorem makeIf (condition : Bool) (name : String) (h : LabelSafe body) :
    LabelSafe (Attribute.makeIf condition name body) := by
  grind [Attribute.makeIf]

@[grind ←] theorem makeFor {α : Type} (value : Option α) (name : String) {body : α → PoolM Bytes}
    (h : ∀ a, LabelSafe (body a)) : LabelSafe (Attribute.makeFor value name body) := by
  cases value <;> grind [Attribute.makeFor]

@[grind ←] theorem encodeAttribute (a : Attribute) : LabelSafe a.encode := by grind [Attribute.encode]

@[grind ←] theorem encodeAll (attributes : List Attribute) : LabelSafe (Attribute.encodeAll attributes) := by
  grind [Attribute.encodeAll]

/-! ## Annotations -/

mutual

@[grind ←] theorem encodeValue (v : ElementValue) : LabelSafe v.encode := by
  cases v with
  | nested descriptor elements =>
    have h := encodeElements elements
    grind [ElementValue.encode]
  | array values =>
    have h := encodeValues values
    grind [ElementValue.encode]
  | _ => grind [ElementValue.encode, putInteger]

@[grind ←] theorem encodeElements (elements : List (String × ElementValue)) :
    LabelSafe (ElementValue.encodeElements elements) := by
  match elements with
  | [] => grind [ElementValue.encodeElements]
  | (name, value) :: rest =>
    have h := encodeValue value
    have hs := encodeElements rest
    grind [ElementValue.encodeElements]

@[grind ←] theorem encodeValues (values : List ElementValue) : LabelSafe (ElementValue.encodeAll values) := by
  match values with
  | [] => grind [ElementValue.encodeAll]
  | value :: rest =>
    have h := encodeValue value
    have hs := encodeValues rest
    grind [ElementValue.encodeAll]

end

@[grind ←] theorem encodeAnnotation (a : Annotation) : LabelSafe a.encode := by unfold Annotation.encode; grind

@[grind ←] theorem encodePath (path : List PathStep) : LabelSafe (encodePath path) := by grind [ClassDoc.encodePath]

@[grind ←] theorem encodeRange {r : LocalRange Label} (hs : LabelSafe (offsets.of r.start))
    (ht : LabelSafe (offsets.of r.stop)) : LabelSafe (r.encode offsets) := by
  grind [LocalRange.encode]

@[grind ←] theorem encodeTarget {target : TypeTarget Label}
    (h : ∀ l ∈ target.labels, LabelSafe (offsets.of l)) : LabelSafe (target.encode offsets) := by
  cases target with
  | localVariable ranges =>
    have hr : ∀ r ∈ ranges, LabelSafe (r.encode offsets) := by
      intro r hr
      have hm : ∀ l ∈ [r.start, r.stop], LabelSafe (offsets.of l) := fun l hl =>
        h l (List.mem_flatMap.2 ⟨r, hr, hl⟩)
      exact encodeRange (hm _ (by simp)) (hm _ (by simp))
    grind [TypeTarget.encode]
  | offset label =>
    have := h label (by simp [TypeTarget.labels])
    grind [TypeTarget.encode]
  | typeArgument label argument =>
    have := h label (by simp [TypeTarget.labels])
    grind [TypeTarget.encode]
  | _ => grind [TypeTarget.encode]

@[grind ←] theorem encodeType {a : TypeAnnotation Label}
    (h : ∀ l ∈ a.target.labels, LabelSafe (offsets.of l)) : LabelSafe (a.encode offsets) := by
  have hc : LabelSafe (a.check offsets.isSome) := by unfold TypeAnnotation.check; grind
  have ht := encodeTarget h
  unfold TypeAnnotation.encode
  grind

@[grind ←] theorem annotationsAttribute (visible : Bool) (annotations : List (Bool × Annotation)) :
    LabelSafe (annotationsAttribute visible annotations) := by
  grind [ClassDoc.annotationsAttribute]

theorem typeAnnotationsAttribute (visible : Bool) {annotations : List (Bool × TypeAnnotation Label)}
    (h : ∀ a ∈ annotations, ∀ l ∈ a.2.target.labels, LabelSafe (offsets.of l)) :
    LabelSafe (typeAnnotationsAttribute offsets visible annotations) := by
  refine makeIf _ _ (encodeList fun a ha => encodeType ?_)
  obtain ⟨b, hb, hba⟩ := List.mem_filterMap.1 ha
  split at hba
  · cases hba
    exact h b hb
  · cases hba

@[grind ←] theorem annotationAttributes (annotations : List (Bool × Annotation))
    (typeAnnotations : List (Bool × TypeAnnotation Label)) :
      LabelSafe (annotationAttributes annotations typeAnnotations) := by
  have h : ∀ visible, LabelSafe (ClassDoc.typeAnnotationsAttribute none visible typeAnnotations) := fun visible =>
    typeAnnotationsAttribute visible fun a _ l _ => error rfl
  grind [ClassDoc.annotationAttributes]

end ClassDoc.LabelSafe
