/-
  Fields are read back.
-/
import ClassDoc.Proofs.ClassFile.Element
import ClassDoc.Proofs.Pool.Constant
namespace ClassDoc

variable {full : Bool} (field : String)

/-! ## The attributes of a field -/

theorem readFieldPart_of_not_mem (V : PoolView) (name : String) (h : name ∉ [Attribute.constantValueName]) :
    readFieldPart V field name = readElementPart V (.fieldAttribute name field) name := by
  funext length
  rw [readFieldPart, if_neg (by simpa using h)]

theorem readsAny_field : ReadsAny fun V => readFieldPart V field :=
  readsAny_of (readFieldPart_of_not_mem field) (by decide)

theorem readsMarkers_field : ReadsMarkers fun V => readFieldPart V field :=
  readsMarkers_of (readFieldPart_of_not_mem field) (by decide)

def fieldParts (header : FieldHeader) (events : List ClassEvent) : List Part :=
  Part.ofElement events (header.value.toList.map Part.constantValue) [] []

theorem isValue_of_check {value : Option Constant} {u : Unit} (h : checkValue value = .ok u) :
    ∀ c ∈ value, c.isValue = true := by
  rintro c rfl
  cases c with
  | integer | float | long | double | string => rfl
  | classRef | methodType | methodHandle | dynamic => exact nomatch h

theorem puts_fieldAttributes (header : FieldHeader) (events : List ClassEvent) :
    Puts full (fieldAttributes header events) fun V attributes =>
      Attribute.AllReadAs V (readFieldPart V header.name) attributes (fieldParts header events) ∧
        Element.IsOutside events := by
  refine PutsIn.bind_exists (PutsIn.lift _) fun _ hc => ?_
  obtain ⟨-, -, hc⟩ := hc
  refine PutsIn.bind (puts_makeFor (fun V => readFieldPart V header.name) header.value Part.constantValue fun c hv =>
    (puts_indexBytes (puts_constantValue c (isValue_of_check hc c hv))).mono fun V bytes hb => ?_) fun value => ?_
  · exact .take_map hb rfl
  · refine PutsIn.bind (puts_signature (readsAny_field header.name) _) fun signature =>
      PutsIn.bind (puts_markers (readsMarkers_field header.name) events) fun markers =>
      PutsIn.map (puts_annotationAttributes (readsAny_field header.name) _ _) fun P V annotations h₄ h₃ h₂ h₁ _ => ⟨?_, h₄.2⟩
    simpa only [fieldParts, Part.ofElement, List.append_nil] using ((h₁.append h₂).append h₃).append h₄.1

/-! ## The events of a field -/

def fieldReadBack (header : FieldHeader) (events : List ClassEvent) : List ClassEvent :=
  .field header :: (Element.headEvents events ++ Element.annotationEvents events)

theorem fieldEvents_fieldParts {header : FieldHeader} {events : List ClassEvent} (ho : Element.IsOutside events) :
    fieldEvents header.access header.name header.descriptor (fieldParts header events)
      = fieldReadBack header events := by
  have hx : ∀ p ∈ header.value.toList.map Part.constantValue, p.isCommon = false := by simp [Part.isCommon]
  have hc := Part.filter_ofElement events hx (List.forall_mem_nil _) (List.forall_mem_nil _)
  simp only [fieldEvents, fieldParts, Part.headEvents_of_common hc, Part.annotationEvents_of_common hc ho, Part.last?]
  rw [Part.filterMap_ofElement, fieldReadBack]
  · obtain ⟨access, name, descriptor, value⟩ := header
    cases value <;> rfl
  · intro p hp
    cases p with
    | constantValue => cases hp
    | _ => rfl

/-! ## The bytes of a field -/

def fieldBytes (header : FieldHeader) (events : List ClassEvent) : PoolM Bytes := do
  ofDescriptor (Descriptor.checkField header.descriptor)
  let name ← Pool.utf8 header.name
  let descriptor ← Pool.utf8 header.descriptor
  let attributes ← fieldAttributes header events
  let attributes ← Attribute.encodeAll attributes
  return Bytes.u2 header.access ++ Bytes.u2 name ++ Bytes.u2 descriptor ++ attributes

/-- **A field is read back.** -/
theorem puts_fieldBytes (header : FieldHeader) (events : List ClassEvent) :
    Puts full (fieldBytes header events) fun V bytes =>
      Consumes (readField V) bytes (fieldReadBack header events) (fun _ => True) ∧ Decodes skipMember bytes () := by
  refine PutsIn.bind (PutsIn.lift _) fun _ => PutsIn.bind (puts_utf8 header.name) fun name =>
    PutsIn.bind (puts_utf8 header.descriptor) fun descriptor =>
    PutsIn.bind (puts_fieldAttributes header events) fun attributes =>
    PutsIn.map (PutsIn.lift _) fun P V bytes hb ha hd hn _ => ⟨?_, decodes_skipMember hb⟩
  simp only [List.append_assoc]
  refine .take_bind (decodes_u2 _) (.take_bind (decodes_index hn) (.take_bind (decodes_index hd) (.inside _ ?_)))
  refine (consumes_attributes ha.1 hb).bind_nil fun parts hp => ?_
  rw [eq_of_exactly hp, fieldEvents_fieldParts ha.2]
  exact .emitEvents _

end ClassDoc
