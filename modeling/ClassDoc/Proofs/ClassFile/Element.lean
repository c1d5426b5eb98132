/-
  The attributes that every element can have are read back.
-/
import ClassDoc.Proofs.Attribute.Annotation
import ClassDoc.Proofs.Attribute.Read
import ClassDoc.Proofs.Code.Relabel
import ClassDoc.ClassFile.Reader
namespace ClassDoc

open List

/-! ## What the readers have in common -/

def anyNames : List String :=
  [Attribute.signatureName, Attribute.annotationsName true, Attribute.annotationsName false,
    Attribute.typeAnnotationsName true, Attribute.typeAnnotationsName false]

def ReadsAny (part : PoolView → String → Nat → ReadM (Option Part)) : Prop :=
  ∀ V name length bytes p, name ∈ anyNames → Consumes (readAnyPart V name) bytes [] (· = some p) →
    Consumes (part V name length) bytes [] (· = some p)

def ReadsMarkers (part : PoolView → String → Nat → ReadM (Option Part)) : Prop :=
  ∀ V name p, marker? name = some p → Consumes (part V name 0) [] [] (· = some p)

variable {bytes : Bytes} {attributes : List Attribute} {name : String}

theorem marker?_names {p : Part} (h : marker? name = some p) :
    name ∈ [Attribute.deprecatedName, Attribute.syntheticName] := by
  unfold marker? at h
  split at h
  next hn => simp [hn]
  next =>
    split at h
    next hn => simp [hn]
    next => exact nomatch h

theorem readAnyPart_of_not_mem {V : PoolView} (h : name ∉ anyNames) : readAnyPart V name = pure none := by
  simp only [anyNames, mem_cons, not_mem_nil, or_false, not_or] at h
  obtain ⟨h₁, h₂, h₃, h₄, h₅⟩ := h
  rw [readAnyPart, if_neg h₁, if_neg h₂, if_neg h₃, if_neg h₄, if_neg h₅]

section
variable {V : PoolView} {w : Warning} {name : String} {p : Part}

theorem consumes_element_any {length : Nat} {bytes : Bytes} (h : Consumes (readAnyPart V name) bytes [] (· = some p)) :
    Consumes (readElementPart V w name length) bytes [] (· = some p) := by
  rw [← append_nil ([] : List ClassEvent)]
  refine h.bind_nil ?_
  rintro _ rfl
  exact .pure rfl

theorem consumes_element_marker (h : marker? name = some p) : Consumes (readElementPart V w name 0) [] [] (· = some p) := by
  have hn : name ∉ anyNames := by
    rcases mem_pair.1 (marker?_names h) with rfl | rfl <;> decide
  simp only [readElementPart, readAnyPart_of_not_mem hn, pure_bind, h]
  exact .take_map (decodes_skip []) rfl

end

section
variable {part : PoolView → String → Nat → ReadM (Option Part)} {own : List String} {w : String → Warning}
  (hpart : ∀ V name, name ∉ own → part V name = readElementPart V (w name) name)
include hpart

theorem readsAny_of (hown : ∀ name ∈ anyNames, name ∉ own) : ReadsAny part := by
  intro V name length bytes p hn h
  rw [hpart V name (hown name hn)]
  exact consumes_element_any h

theorem readsMarkers_of (hown : ∀ name ∈ [Attribute.deprecatedName, Attribute.syntheticName], name ∉ own) :
    ReadsMarkers part := by
  intro V name p h
  rw [hpart V name (hown name (marker?_names h))]
  exact consumes_element_marker h

end

/-! ## Signatures and markers -/

section
variable {full : Bool} {part : PoolView → String → Nat → ReadM (Option Part)}

theorem puts_signature (hp : ReadsAny part) (signature : Option String) :
    PutsAs full part (signatureAttribute signature) (signature.toList.map Part.signature) := by
  refine puts_makeFor part signature Part.signature fun s _ => (puts_utf8Bytes s).mono fun V bytes hb => ?_
  refine hp _ _ _ _ _ (by decide) ?_
  rw [readAnyPart, if_pos rfl]
  exact .take_map hb rfl

def markerParts (events : List ClassEvent) : List Part :=
  (if Element.deprecated events then [Part.deprecated] else [])
    ++ (if Element.synthetic events then [Part.synthetic] else [])

theorem puts_markers (hp : ReadsMarkers part) (events : List ClassEvent) :
    PutsAs full part (markerAttributes events) (markerParts events) := by
  have hmark : ∀ (condition : Bool) (name : String) (p : Part), marker? name = some p →
      PutsAs full part (Attribute.makeIf condition name (pure [])) (if condition then [p] else []) :=
    fun condition name p hm => puts_makeIf part condition p fun _ => Puts.pure fun V => hp V name p hm
  refine (hmark _ _ .deprecated rfl).bind fun deprecated => (hmark _ _ .synthetic rfl).map
    fun V synthetic hs hd => ?_
  exact hd.append hs

/-! ## Annotations -/

def byVisibility {α : Type} (xs : List (Bool × α)) : List (Bool × α) :=
  (withVisibility true xs).map (fun a => (true, a)) ++ (withVisibility false xs).map (fun a => (false, a))

theorem puts_annotationsAttribute (hp : ReadsAny part) (visible : Bool) (annotations : List (Bool × Annotation)) :
    PutsAs full part (annotationsAttribute visible annotations) (if !(withVisibility visible annotations).isEmpty then
      [.annotations visible (withVisibility visible annotations)] else []) := by
  refine puts_makeIf part _ _ fun _ => (puts_annotations _).mono fun V bytes hb => ?_
  refine hp _ _ _ _ _ (by cases visible <;> decide) ?_
  cases visible <;> exact .take_map hb rfl

def TypeAnnotation.IsOutside (a : TypeAnnotation Label) : Prop := a.target.labels = []

theorem TypeAnnotation.IsOutside.withoutLabels {a : TypeAnnotation Label} (h : TypeAnnotation.IsOutside a) :
    Part.withoutLabels (a.map fun _ => 0) = a := by
  rw [Part.withoutLabels, TypeAnnotation.idRun_mapLabels, TypeAnnotation.map_map]
  refine Eq.trans (a.map_congr fun l hl => ?_) a.map_id
  rw [h] at hl
  exact absurd hl not_mem_nil

theorem puts_outsideTypes (as : List <| TypeAnnotation Label) :
    Puts full (encodeList (·.encode none) as) fun V bytes =>
      Decodes (decodeTypes V none) bytes (as.map (·.map fun _ => 0)) ∧
        ∀ a ∈ as, TypeAnnotation.IsOutside a := by
  have hw : Offsets.Within none none := ⟨rfl, fun h _ => nomatch h⟩
  refine (puts_typeAnnotations hw as).mono fun V bytes h => ?_
  obtain ⟨as', ha, hd⟩ := h
  have hnone : ∀ l o, Offsets.of none l = .ok o → (0 : UInt16) = o := fun _ _ ho => nomatch ho
  constructor
  · rwa [mapM_eq_ok_map ha fun a a' h => TypeAnnotation.mapLabels_eq_ok hnone h]
  · intro a hm
    obtain ⟨a', -, h⟩ := exists_of_mem_mapM ha hm
    obtain ⟨t, ht, -⟩ := bind_eq_ok.1 h
    refine eq_nil_iff_forall_not_mem.2 fun l hl => ?_
    obtain ⟨o, ho⟩ := TypeTarget.exists_of_mapLabels ht l hl
    exact nomatch ho

def typesPart (visible : Bool) (annotations : List (Bool × TypeAnnotation Label)) : Part :=
  .typeAnnotations visible ((withVisibility visible annotations).map (·.map fun _ => 0))

theorem puts_typeAnnotationsAttribute (hp : ReadsAny part) (visible : Bool)
    (annotations : List (Bool × TypeAnnotation Label)) :
    Puts full (typeAnnotationsAttribute none visible annotations) fun V attributes =>
      Attribute.AllReadAs V (part V) attributes
        (if !(withVisibility visible annotations).isEmpty then [typesPart visible annotations] else []) ∧
      ∀ a ∈ withVisibility visible annotations, TypeAnnotation.IsOutside a := by
  have ht := @puts_outsideTypes full (withVisibility visible annotations)
  refine (PutsIn.and (puts_makeIf part _ (typesPart visible annotations) fun _ => ht.mono fun V bytes hb => ?_)
    (puts_makeIf_of _ (ht.mono fun V bytes hb => hb.2))).mono fun P V attributes h => ⟨h.1, fun a ha => h.2 ?_ a ha⟩
  · refine hp _ _ _ _ _ (by cases visible <;> decide) ?_
    cases visible <;> exact .take_map hb.1 rfl
  · cases hl : withVisibility visible annotations with
    | nil => simp [hl] at ha
    | cons => rfl

def annotationParts (annotations : List (Bool × Annotation)) (types : List (Bool × TypeAnnotation Label)) :
    List Part :=
  (if !(withVisibility true annotations).isEmpty then [Part.annotations true (withVisibility true annotations)] else [])
    ++ (if !(withVisibility false annotations).isEmpty then
      [Part.annotations false (withVisibility false annotations)] else [])
    ++ (if !(withVisibility true types).isEmpty then [typesPart true types] else [])
    ++ (if !(withVisibility false types).isEmpty then [typesPart false types] else [])

theorem puts_annotationAttributes (hp : ReadsAny part) (annotations : List (Bool × Annotation))
    (types : List (Bool × TypeAnnotation Label)) :
    Puts full (annotationAttributes annotations types) fun V attributes =>
      Attribute.AllReadAs V (part V) attributes (annotationParts annotations types) ∧
        ∀ visible, ∀ a ∈ withVisibility visible types, TypeAnnotation.IsOutside a := by
  refine (puts_annotationsAttribute hp true _).bind fun visible => (puts_annotationsAttribute hp false _).bind
    fun invisible => (puts_typeAnnotationsAttribute hp true _).bind fun visibleTypes =>
    (puts_typeAnnotationsAttribute hp false _).map fun V invisibleTypes h₄ h₃ h₂ h₁ => ⟨?_, ?_⟩
  · exact ((h₁.append h₂).append h₃.1).append h₄.1
  · intro visible
    cases visible with
    | true => exact h₃.2
    | false => exact h₄.2

end

/-! ## Reading at another place -/

theorem consumes_readAt {α : Type} {x : ReadM α} {events : List ClassEvent} {P : α → Prop}
    (h : Consumes x bytes events P) (rest : Bytes) (n : Nat) : Consumes (readAt ⟨bytes ++ rest, n⟩ x) [] events P := by
  intro rest' n' items
  obtain ⟨a, new, hx, ha, he⟩ := h rest n items
  refine ⟨a, new, ?_, ha, he⟩
  exact run_bind_eq_ok.2 ⟨_, _, rfl, run_bind_eq_ok.2 ⟨_, _, rfl, run_bind_eq_ok.2 ⟨a, _, hx, rfl⟩⟩⟩

/-! ## Skipping members -/

theorem decodes_skipAttributes (h : Attribute.encodeAll attributes = .ok bytes) : Decodes skipAttributes bytes () := by
  obtain ⟨count, hc, h⟩ := bind_eq_ok.1 h
  obtain ⟨parts, hp, h⟩ := bind_eq_ok.1 h
  obtain rfl := Except.ok.inj h
  rw [← length_map (f := fun _ => ())] at hc
  refine (Decodes.list hc ?_).bind_nil (.pure ())
  rw [forall₂_map_right_iff]
  refine (mapM_eq_ok_iff.1 hp).flip.imp fun part a ha => ?_
  obtain ⟨length, hl, ha⟩ := bind_eq_ok.1 ha
  obtain rfl := Except.ok.inj ha
  obtain ⟨hd, hlen⟩ := count4_eq_ok hl
  simp only [append_assoc]
  refine (decodes_u2 _).bind (hd.bind ?_)
  rw [hlen]
  exact decodes_skip a.body

def skipMember : Decode Unit := do
  Decode.skip 6
  skipAttributes

theorem decodes_skipMember {access name descriptor : UInt16} (h : Attribute.encodeAll attributes = .ok bytes) :
    Decodes skipMember (Bytes.u2 access ++ Bytes.u2 name ++ Bytes.u2 descriptor ++ bytes) () :=
  (decodes_skip (Bytes.u2 access ++ Bytes.u2 name ++ Bytes.u2 descriptor)).bind (decodes_skipAttributes h)

/-! ## The events of the parts -/

namespace Element

variable (events : List ClassEvent)

def headEvents : List ClassEvent :=
  (signature events).toList.map ClassEvent.signature ++ (if deprecated events then [ClassEvent.deprecated] else [])
    ++ (if synthetic events then [ClassEvent.synthetic] else [])

def annotationEvents : List ClassEvent :=
  (byVisibility (annotations events)).map (fun a => ClassEvent.annotate a.1 a.2)
    ++ (byVisibility (typeAnnotations events)).map fun a => ClassEvent.annotateType a.1 a.2

def IsOutside : Prop := ∀ visible, ∀ a ∈ withVisibility visible (typeAnnotations events), TypeAnnotation.IsOutside a

end Element

namespace Part

theorem annotationsOf_annotationParts (annotations : List (Bool × Annotation))
    (types : List (Bool × TypeAnnotation Label)) :
    annotationsOf (annotationParts annotations types) = byVisibility annotations := by
  simp only [annotationsOf, annotationParts, flatMap_append, flatMap_ite, typesPart, ite_self, append_nil]
  rw [byVisibility, ite_isEmpty _ (List.map _) rfl, ite_isEmpty _ (List.map _) rfl]

variable {types : List (Bool × TypeAnnotation Label)}

theorem typeAnnotationsOf_annotationParts (annotations : List (Bool × Annotation))
    (ho : ∀ visible, ∀ a ∈ withVisibility visible types, TypeAnnotation.IsOutside a) :
    typeAnnotationsOf (annotationParts annotations types) = byVisibility types := by
  have hmap : ∀ visible, ((withVisibility visible types).map (·.map fun _ => 0)).map
      (fun a => (visible, withoutLabels a)) = (withVisibility visible types).map fun a => (visible, a) := by
    intro visible
    rw [map_map]
    exact map_congr_left fun a ha => by rw [Function.comp_apply, (ho visible a ha).withoutLabels]
  simp only [typeAnnotationsOf, annotationParts, flatMap_append, flatMap_ite, typesPart, ite_self, nil_append,
    hmap]
  rw [byVisibility, ite_isEmpty _ (List.map _) rfl, ite_isEmpty _ (List.map _) rfl]

def isCommon : Part → Bool
  | signature _ | deprecated | synthetic | annotations _ _ | typeAnnotations _ _ => true
  | _ => false

theorem isCommon_signature {signature : Option String} : ∀ p ∈ signature.toList.map Part.signature, p.isCommon = true := by
  simp [isCommon]

theorem isCommon_markerParts {events : List ClassEvent} : ∀ p ∈ markerParts events, p.isCommon = true := by
  intro p hp
  simp only [markerParts, mem_append, mem_ite_nil_right, mem_singleton] at hp
  rcases hp with ⟨-, rfl⟩ | ⟨-, rfl⟩ <;> rfl

theorem isCommon_annotationParts {annotations : List (Bool × Annotation)} :
    ∀ p ∈ annotationParts annotations types, p.isCommon = true := by
  intro p hp
  simp only [annotationParts, mem_append, mem_ite_nil_right, mem_singleton] at hp
  rcases hp with ((⟨-, rfl⟩ | ⟨-, rfl⟩) | ⟨-, rfl⟩) | ⟨-, rfl⟩ <;> rfl

def common (events : List ClassEvent) : List Part :=
  (Element.signature events).toList.map signature ++ markerParts events
    ++ annotationParts (Element.annotations events) (Element.typeAnnotations events)

/-- The parts of an element: its own ones stand before the signature, before the markers, and at the end. -/
def ofElement (events : List ClassEvent) (xs ys zs : List Part) : List Part :=
  xs ++ (Element.signature events).toList.map signature ++ ys ++ markerParts events
    ++ annotationParts (Element.annotations events) (Element.typeAnnotations events) ++ zs

section
variable {xs ys zs : List Part} (events : List ClassEvent) (hx : ∀ p ∈ xs, p.isCommon = false)
  (hy : ∀ p ∈ ys, p.isCommon = false) (hz : ∀ p ∈ zs, p.isCommon = false)
include hx hy hz

theorem filter_ofElement : (ofElement events xs ys zs).filter isCommon = common events := by
  simp only [ofElement, filter_append, filter_eq_self.2 isCommon_signature,
    filter_eq_self.2 isCommon_markerParts, filter_eq_self.2 isCommon_annotationParts, common]
  rw [filter_eq_nil_iff.2 (by simpa using hx), filter_eq_nil_iff.2 (by simpa using hy),
    filter_eq_nil_iff.2 (by simpa using hz)]
  simp

end

theorem filterMap_ofElement {α : Type} {f : Part → Option α} (hf : ∀ p, p.isCommon = true → f p = none)
    (events : List ClassEvent) (xs ys zs : List Part) :
    (ofElement events xs ys zs).filterMap f = (xs ++ ys ++ zs).filterMap f := by
  have hnone : ∀ ps : List Part, (∀ p ∈ ps, p.isCommon = true) → ps.filterMap f = [] :=
    fun ps h => filterMap_eq_nil_iff.2 fun p hp => hf p (h p hp)
  simp only [ofElement, filterMap_append, hnone _ isCommon_signature, hnone _ isCommon_markerParts,
    hnone _ isCommon_annotationParts, append_nil]

theorem flatMap_ofElement {α : Type} {f : Part → List α} (hf : ∀ p, p.isCommon = true → f p = [])
    (events : List ClassEvent) (xs ys zs : List Part) :
    (ofElement events xs ys zs).flatMap f = (xs ++ ys ++ zs).flatMap f := by
  have hnil : ∀ ps : List Part, (∀ p ∈ ps, p.isCommon = true) → ps.flatMap f = [] :=
    fun ps h => flatMap_eq_nil_iff.2 fun p hp => hf p (h p hp)
  simp only [ofElement, flatMap_append, hnil _ isCommon_signature, hnil _ isCommon_markerParts,
    hnil _ isCommon_annotationParts, append_nil]

section
variable {events : List ClassEvent} {ps : List Part} (h : ps.filter isCommon = common events)
include h

theorem filterMap_of_common {α : Type} {f : Part → Option α} (hf : ∀ p, p.isCommon = false → f p = none) :
    ps.filterMap f = (common events).filterMap f := by
  rw [← h, filterMap_filter]
  refine congrArg (fun g => ps.filterMap g) (funext fun p => ?_)
  cases hp : p.isCommon with
  | true => rfl
  | false => exact hf p hp

theorem flatMap_of_common {α : Type} {f : Part → List α} (hf : ∀ p, p.isCommon = false → f p = []) :
    ps.flatMap f = (common events).flatMap f := by
  rw [← h]
  clear h
  induction ps with
  | nil => rfl
  | cons p ps ih =>
    rw [filter_cons, flatMap_cons, ih]
    cases hp : p.isCommon with
    | true => rfl
    | false => rw [hf p hp]; rfl

theorem any_of_common {f : Part → Bool} (hf : ∀ p, p.isCommon = false → f p = false) :
    ps.any f = (common events).any f := by
  rw [← h, any_filter]
  refine congrArg ps.any (funext fun p => ?_)
  cases hp : p.isCommon with
  | true => rfl
  | false => exact hf p hp

theorem annotationsOf_of_common : annotationsOf ps = byVisibility (Element.annotations events) := by
  rw [← annotationsOf_annotationParts _ (Element.typeAnnotations events), annotationsOf, annotationsOf,
    flatMap_of_common h, common, flatMap_append]
  · simp [markerParts, flatMap_ite, flatMap_map]
  · intro p hp
    cases p with
    | annotations => exact nomatch hp
    | _ => rfl

theorem typeAnnotationsOf_of_common (ho : Element.IsOutside events) :
    typeAnnotationsOf ps = byVisibility (Element.typeAnnotations events) := by
  rw [← typeAnnotationsOf_annotationParts (Element.annotations events) ho, typeAnnotationsOf, typeAnnotationsOf,
    flatMap_of_common h, common, flatMap_append]
  · simp [markerParts, flatMap_ite, flatMap_map]
  · intro p hp
    cases p with
    | typeAnnotations => exact nomatch hp
    | _ => rfl

theorem signatureEvents_of_common :
    signatureEvents ps = (Element.signature events).toList.map ClassEvent.signature := by
  rw [signatureEvents, filterMap_of_common h, common]
  · simp [markerParts, annotationParts, typesPart, filterMap_ite]
  · intro p hp
    cases p with
    | signature => exact nomatch hp
    | _ => rfl

theorem lastSignature_of_common : lastSignature ps = (Element.signature events).toList.map ClassEvent.signature := by
  rw [lastSignature, signatureEvents_of_common h]
  cases Element.signature events <;> rfl

theorem markerEvents_of_common :
    markerEvents ps = (if Element.deprecated events then [ClassEvent.deprecated] else [])
      ++ (if Element.synthetic events then [ClassEvent.synthetic] else []) := by
  rw [markerEvents, any_of_common h, any_of_common h, common]
  · simp [markerParts, annotationParts, typesPart, any_ite]
  · intro p hp
    cases p with
    | synthetic => exact nomatch hp
    | _ => rfl
  · intro p hp
    cases p with
    | deprecated => exact nomatch hp
    | _ => rfl

theorem headEvents_of_common : lastSignature ps ++ markerEvents ps = Element.headEvents events := by
  rw [lastSignature_of_common h, markerEvents_of_common h, Element.headEvents, append_assoc]

theorem annotationEvents_of_common (ho : Element.IsOutside events) :
    annotationEvents ps = Element.annotationEvents events := by
  rw [annotationEvents, annotationsOf_of_common h, typeAnnotationsOf_of_common h ho]
  rfl

end

end Part

end ClassDoc
