/-
  The names in a model, by how documents write them.
-/
import ClassDoc.Model.Basic
import Mathlib
namespace ClassDoc

/-! ## Annotations -/

mutual

def AnnotationValue.escapedNames : AnnotationValue → List String
  | value _ => []
  | enum _ name => [name]
  | classRef _ => []
  | nested _ properties => AnnotationValue.propertyNames properties
  | array values => AnnotationValue.namesOfAll values

def AnnotationValue.propertyNames : List (String × AnnotationValue) → List String
  | [] => []
  | (name, v) :: rest => name :: (v.escapedNames ++ AnnotationValue.propertyNames rest)

def AnnotationValue.namesOfAll : List AnnotationValue → List String
  | [] => []
  | v :: rest => v.escapedNames ++ AnnotationValue.namesOfAll rest

end

mutual

def AnnotationValue.distinct : AnnotationValue → Bool
  | value _ | enum _ _ | classRef _ => true
  | nested _ properties => decide (properties.map Prod.fst).Nodup && AnnotationValue.distinctIn properties
  | array values => AnnotationValue.allDistinct values

def AnnotationValue.distinctIn : List (String × AnnotationValue) → Bool
  | [] => true
  | (_, v) :: rest => v.distinct && AnnotationValue.distinctIn rest

def AnnotationValue.allDistinct : List AnnotationValue → Bool
  | [] => true
  | v :: rest => v.distinct && AnnotationValue.allDistinct rest

end

namespace Model

def Annotation.escapedNames (a : Annotation) : List String := AnnotationValue.propertyNames a.properties

def Annotation.distinct (a : Annotation) : Bool :=
  decide (a.properties.map Prod.fst).Nodup && AnnotationValue.distinctIn a.properties

def namesOfAnnotated (annotations : List Annotation) (typeAnnotations : List TypeAnnotation) : List String :=
  annotations.flatMap Annotation.escapedNames ++ typeAnnotations.flatMap fun a => a.base.escapedNames

def distinctAnnotated (annotations : List Annotation) (typeAnnotations : List TypeAnnotation) : Bool :=
  annotations.all Annotation.distinct && typeAnnotations.all fun a => a.base.distinct

/-! ## Members -/

def RecordComponent.escapedNames (c : RecordComponent) : List String :=
  c.name :: namesOfAnnotated c.annotations c.typeAnnotations

def Field.escapedNames (f : Field) : List String := f.name :: namesOfAnnotated f.annotations f.typeAnnotations

def Parameter.escapedNames (p : Parameter) : List String :=
  p.name.toList ++ p.annotations.flatMap Annotation.escapedNames

def Method.escapedNames (m : Method) : List String :=
  m.name :: (m.parameters.flatMap Parameter.escapedNames ++ namesOfAnnotated m.annotations m.typeAnnotations
    ++ m.annotationDefault.toList.flatMap AnnotationValue.escapedNames ++ m.localVariables.map LocalVariable.name)

def Method.distinct (m : Method) : Bool :=
  m.parameters.all (fun p => p.annotations.all Annotation.distinct) && distinctAnnotated m.annotations m.typeAnnotations
    && m.annotationDefault.all AnnotationValue.distinct

/-- No annotation of the method has two properties of one name. -/
structure Method.Distinct (m : Method) : Prop where
  parameters : ∀ p ∈ m.parameters, ∀ a ∈ p.annotations, a.distinct = true
  annotated : distinctAnnotated m.annotations m.typeAnnotations = true
  default : m.annotationDefault.all AnnotationValue.distinct = true

theorem Method.distinct_iff {m : Method} : m.distinct = true ↔ m.Distinct := by
  simp only [Method.distinct, Bool.and_eq_true, List.all_eq_true]
  exact ⟨fun h => ⟨h.1.1, h.1.2, h.2⟩, fun h => ⟨⟨h.1, h.2⟩, h.3⟩⟩

end Model

/-- The class names in a type of a frame. -/
def VerificationType.pathNames : VerificationType Label → List String
  | object name => [name]
  | _ => []

/-- The class names in an entry that are not operands. -/
def MethodEntry.pathNames : MethodEntry → List String
  | tryCatch t => t.catchType.toList
  | frame f => (f.locals ++ f.stack).flatMap VerificationType.pathNames
  | instruction _ | label _ | line _ _ => []

/-- The class names in a method that are not operands. -/
def Model.Method.pathNames (m : Method) : List String := m.exceptions ++ m.entries.flatMap MethodEntry.pathNames

/-- The names of packages and classes in a module description. -/
def ModuleInfo.pathNames (m : ModuleInfo) : List String :=
  m.exports.map ModulePackage.package ++ m.opens.map ModulePackage.package ++ m.uses
    ++ m.provides.flatMap (fun p => p.service :: p.implementations) ++ m.packages ++ m.mainClass.toList

/-! ## Classes -/

namespace ClassModel

/-- The names in a class that documents escape as a whole. -/
def escapedNames (c : ClassModel) : List String :=
  c.enclosingMethod.toList.flatMap (fun e => e.method.toList.map Prod.fst)
    ++ c.innerClasses.flatMap (fun i => i.simpleName.toList) ++ Model.namesOfAnnotated c.annotations c.typeAnnotations
    ++ (c.record.getD []).flatMap Model.RecordComponent.escapedNames ++ c.fields.flatMap Model.Field.escapedNames
    ++ c.methods.flatMap Model.Method.escapedNames

/-- The names in a class that documents escape segment by segment. -/
def pathNames (c : ClassModel) : List String :=
  c.name :: (c.superClass.toList ++ c.interfaces ++ c.enclosingMethod.toList.map EnclosingMethod.owner
    ++ c.nestHost.toList ++ c.nestMembers ++ c.permittedSubclasses
    ++ c.innerClasses.flatMap (fun i => i.name :: i.outer.toList) ++ c.module.toList.flatMap ModuleInfo.pathNames
    ++ c.methods.flatMap Model.Method.pathNames)

/-- In every annotation of the class, each name has one property. -/
structure Distinct (c : ClassModel) : Prop where
  annotated : Model.distinctAnnotated c.annotations c.typeAnnotations = true
  components : ∀ r ∈ c.record.getD [], Model.distinctAnnotated r.annotations r.typeAnnotations = true
  fields : ∀ f ∈ c.fields, Model.distinctAnnotated f.annotations f.typeAnnotations = true
  methods : ∀ m ∈ c.methods, m.distinct = true

/-- What holds of each model by the types of its parts: the properties of an annotation are a map, so no name comes
twice, and the length of a list is a number of 64 bits. -/
structure Representable (c : ClassModel) : Prop extends distinct : c.Distinct where
  parameters : ∀ m ∈ c.methods, m.parameters.length < 2 ^ 64

end ClassModel

end ClassDoc
