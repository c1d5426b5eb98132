/-
  The attributes of a class are read back.
-/
import ClassDoc.Proofs.ClassFile.Bootstrap
import ClassDoc.Proofs.ClassFile.Method
namespace ClassDoc

open List

variable {full : Bool} (className : String) (events : List ClassEvent)

/-! ## Records -/

def RecordComponent.readBack (c : RecordComponent) : RecordComponent :=
  { c with annotations := byVisibility c.annotations, typeAnnotations := byVisibility c.typeAnnotations }

theorem readsAny_component (component : String) : ReadsAny fun V => readComponentPart V component := by
  intro V name length bytes p _ h
  refine h.bind_nil ?_
  rintro _ rfl
  exact .pure rfl

theorem puts_componentParts (c : RecordComponent) : Puts full (encodeComponent c) fun V bytes =>
    ∃ name descriptor attributes table, bytes = Bytes.u2 name ++ (Bytes.u2 descriptor ++ table) ∧ V.utf8 name = .ok c.name ∧
      V.utf8 descriptor = .ok c.descriptor ∧ Attribute.encodeAll attributes = .ok table ∧
      Attribute.AllReadAs V (readComponentPart V c.name) attributes
        (c.signature.toList.map Part.signature ++ annotationParts c.annotations c.typeAnnotations) ∧
      ∀ visible, ∀ a ∈ withVisibility visible c.typeAnnotations, TypeAnnotation.IsOutside a := by
  refine PutsIn.inPlace _ (PutsIn.bind (PutsIn.lift _) fun _ => PutsIn.bind (puts_utf8 c.name) fun name =>
    PutsIn.bind (puts_utf8 c.descriptor) fun descriptor =>
    PutsIn.bind (puts_signature (readsAny_component c.name) c.signature) fun signature =>
    PutsIn.bind (puts_annotationAttributes (readsAny_component c.name) c.annotations c.typeAnnotations)
      fun annotations => PutsIn.map (PutsIn.lift _) fun P V bytes hb ha hs hd hn _ => ?_)
  exact ⟨name, descriptor, _, bytes, append_assoc .., hn, hd, hb, hs.append ha.1, ha.2⟩

theorem puts_component (c : RecordComponent) :
    Puts full (encodeComponent c) fun V bytes => Consumes (readComponent V) bytes [] (· = c.readBack) := by
  refine (puts_componentParts c).mono ?_
  rintro V _ ⟨name, descriptor, attributes, table, rfl, hn, hd, hb, hparts, ho⟩
  refine .take_bind (decodes_index hn) (.take_bind (decodes_index hd) ?_)
  refine (consumes_attributes hparts hb).bind_nil fun parts hp => ?_
  rw [eq_of_exactly hp]
  refine .pure ?_
  have hann : Part.annotationsOf (c.signature.toList.map Part.signature ++ annotationParts c.annotations c.typeAnnotations)
      = byVisibility c.annotations := by
    rw [← Part.annotationsOf_annotationParts c.annotations c.typeAnnotations, Part.annotationsOf, flatMap_append]
    simp [flatMap_map, Part.annotationsOf]
  have htypes : Part.typeAnnotationsOf (c.signature.toList.map Part.signature
      ++ annotationParts c.annotations c.typeAnnotations) = byVisibility c.typeAnnotations := by
    rw [← Part.typeAnnotationsOf_annotationParts c.annotations ho, Part.typeAnnotationsOf, flatMap_append]
    simp [flatMap_map, Part.typeAnnotationsOf]
  simp only [RecordComponent.readBack, RecordComponent.mk.injEq, true_and]
  refine ⟨?_, hann, htypes⟩
  simp only [Part.last?, annotationParts, typesPart, filterMap_append, filterMap_ite, Option.toList_none, ite_self,
    append_nil, filterMap_map, Function.comp_def, filterMap_some, getLast?_toList]

theorem consumes_components {V : PoolView} {cs : List RecordComponent} {parts : List Bytes}
    (h : Forall₂ (fun c bytes => Consumes (readComponent V) bytes [] (· = c)) cs parts) (found : List RecordComponent) :
    Consumes (readComponentsFrom V cs.length found) parts.flatten [] (· = found.reverse ++ cs) := by
  induction h generalizing found with
  | nil => exact .pure (by simp)
  | @cons c bytes cs parts hc _ ih =>
    refine hc.bind ?_
    rintro c rfl
    refine (ih (c :: found)).mono ?_
    rintro _ rfl
    simp

theorem puts_components (cs : List RecordComponent) : Puts full (encodeList encodeComponent cs) fun V bytes =>
    Consumes (readComponents V) bytes [] (· = cs.map RecordComponent.readBack) := by
  refine PutsIn.bind (PutsIn.lift _) fun count => PutsIn.map (PutsIn.mapM fun c _ => puts_component c)
    fun P V parts hp hc => ?_
  obtain ⟨hd, hn⟩ := count2_eq_ok hc
  refine .take_bind hd ?_
  rw [hn, ← length_map (f := RecordComponent.readBack)]
  exact consumes_components (forall₂_map_left_iff.2 hp) []

/-! ## Modules -/

theorem puts_require (r : ModuleRequire) :
    Puts full (encodeRequire r) fun V bytes => Decodes (decodeRequire V) bytes r := by
  refine (puts_module r.module).bind fun module => (puts_optionalUtf8 r.version).map fun V version hv hm => ?_
  rw [append_assoc]
  exact (decodes_index hm).bind ((decodes_u2 r.access).bind (decodes_index hv).map)

theorem puts_modulePackage (p : ModulePackage) :
    Puts full (encodePackage p) fun V bytes => Decodes (decodePackage V) bytes p := by
  refine (puts_package p.package).bind fun package => Puts.map
    (puts_encodeList_self fun name _ => puts_indexBytes (puts_module name)) fun V targets ht hp => ?_
  rw [append_assoc]
  exact (decodes_index hp).bind ((decodes_u2 p.access).bind ht.map)

theorem puts_provide (p : ModuleProvide) :
    Puts full (encodeProvide p) fun V bytes => Decodes (decodeProvide V) bytes p :=
  (puts_classRef p.service).bind fun _ => (puts_classes p.implementations).map fun _ _ hb hs =>
    (decodes_index hs).bind hb.map

def ModuleInfo.bare (m : ModuleInfo) : ModuleInfo := { m with packages := [], mainClass := none }

theorem puts_moduleInfo (m : ModuleInfo) :
    Puts full (encodeModule m) fun V bytes => Decodes (decodeModule V) bytes m.bare := by
  refine (puts_module m.name).bind fun name => (puts_optionalUtf8 m.version).bind fun version =>
    (puts_encodeList_self fun r _ => puts_require r).bind fun requires =>
    (puts_encodeList_self fun p _ => puts_modulePackage p).bind fun exports =>
    (puts_encodeList_self fun p _ => puts_modulePackage p).bind fun opens =>
    (puts_classes m.uses).bind fun uses =>
    Puts.map (puts_encodeList_self fun p _ => puts_provide p) fun V provides hp hu ho he hr hv hn => ?_
  simp only [append_assoc]
  exact (decodes_index hn).bind ((decodes_u2 m.access).bind ((decodes_index hv).bind (hr.bind (he.bind (ho.bind (hu.bind
    hp.map))))))

/-! ## Other attributes -/

theorem puts_innerClass (inner : InnerClass) :
    Puts full (encodeInner inner) fun V bytes => Decodes (decodeInnerClass V) bytes inner := by
  refine (puts_classRef inner.name).bind fun name => (puts_optionalClass inner.outer).bind fun outer =>
    (puts_optionalUtf8 inner.simpleName).map fun V simpleName hs ho hn => ?_
  simp only [append_assoc]
  exact (decodes_index hn).bind ((decodes_index ho).bind ((decodes_index hs).bind (decodes_u2 inner.access).map))

def enclosingPart (e : String × Option String × Option String) : Part :=
  .enclosingMethod e.1 (e.2.1.bind fun name => e.2.2.map fun descriptor => (name, descriptor))

theorem puts_enclosing (e : String × Option String × Option String) : Puts full (encodeEnclosing e) fun V bytes =>
    Decodes (decodeEnclosing V) bytes (enclosingPart e) ∧ e.2.1.isSome = e.2.2.isSome := by
  obtain ⟨owner, name, descriptor⟩ := e
  refine (puts_classRef owner).bind fun o => ?_
  cases name with
  | none =>
    cases descriptor with
    | none => exact .pure fun V ho => ⟨(decodes_index ho).bind (Decodes.map (decodes_index rfl)), rfl⟩
    | some descriptor => exact PutsIn.throw _
  | some name =>
    cases descriptor with
    | none => exact PutsIn.throw _
    | some descriptor =>
      have h0 : Puts full (Pool.nameAndType name descriptor) fun _ i => i ≠ 0 :=
        (puts_utf8 name).bind fun _ => (puts_utf8 descriptor).bind fun _ =>
          (puts_put_ne_zero _).mono fun _ _ hi _ _ => hi
      refine Puts.map ((puts_nameAndType name descriptor).and h0) fun V i hi ho => ⟨?_, rfl⟩
      exact (decodes_index ho).bind (Decodes.map (decodes_index (optional_eq_ok hi.1 hi.2)))

theorem decodes_debug (s : String) :
    Decodes (decodeDebug (JavaText.ofString s).encode.length) (JavaText.ofString s).encode s := by
  refine (decodes_bytes _).bind_nil (.lift_bind (decodeText_encode _) (.lift ?_))
  rw [plainText, JavaText.toString?_ofString]

/-! ## All attributes but the bootstrap methods -/

def classNames : List String :=
  [Attribute.bootstrapMethodsName, Attribute.sourceFileName, Attribute.sourceDebugName, Attribute.enclosingMethodName,
    Attribute.nestHostName, Attribute.nestMembersName, Attribute.permittedSubclassesName, Attribute.innerClassesName,
    Attribute.recordName, Attribute.moduleName, Attribute.modulePackagesName, Attribute.moduleMainClassName]

theorem readClassPart_of_not_mem (V : PoolView) (name : String) (h : name ∉ classNames) :
    readClassPart V className name = readElementPart V (.classAttribute name className) name := by
  simp only [classNames, mem_cons, not_mem_nil, or_false, not_or] at h
  obtain ⟨h₁, h₂, h₃, h₄, h₅, h₆, h₇, h₈, h₉, h₁₀, h₁₁, h₁₂⟩ := h
  funext length
  rw [readClassPart, if_neg h₁, if_neg h₂, if_neg h₃, if_neg h₄, if_neg h₅, if_neg h₆, if_neg h₇, if_neg h₈, if_neg h₉,
    if_neg h₁₀, if_neg h₁₁, if_neg h₁₂]

theorem readsAny_class : ReadsAny fun V => readClassPart V className :=
  readsAny_of (readClassPart_of_not_mem className) (by decide)

theorem readsMarkers_class : ReadsMarkers fun V => readClassPart V className :=
  readsMarkers_of (readClassPart_of_not_mem className) (by decide)

section
variable (className : String)

/-- The attributes of a class that are put are read back as the parts. -/
abbrev PutsParts (full : Bool) (x : PoolM (List Attribute)) (parts : List Part) : Prop :=
  PutsAs full (fun V => readClassPart V className) x parts

theorem puts_sourceFile (file : Option String) : PutsParts className full
    (Attribute.makeFor file Attribute.sourceFileName fun s => indexBytes (Pool.utf8 s)) (file.toList.map Part.sourceFile) :=
  puts_makeFor_take (fun V => readClassPart V className) (fun _ _ => rfl) file puts_utf8Bytes

theorem puts_sourceDebug (debug : Option String) : PutsParts className full
    (Attribute.makeFor debug Attribute.sourceDebugName fun s => pure (JavaText.ofString s).encode)
      (debug.toList.map Part.sourceDebug) := by
  refine puts_makeFor (fun V => readClassPart V className) debug Part.sourceDebug fun s _ => .pure fun V => ?_
  exact .take_map (decodes_debug s) rfl

theorem puts_enclosingAttribute (enclosing : Option (String × Option String × Option String)) : PutsParts className full
    (Attribute.makeFor enclosing Attribute.enclosingMethodName encodeEnclosing) (enclosing.toList.map enclosingPart) := by
  refine puts_makeFor (fun V => readClassPart V className) enclosing enclosingPart fun e _ =>
    (puts_enclosing e).mono fun V bytes hb => ?_
  exact .take_map hb.1 rfl

theorem puts_nestHost (host : Option String) : PutsParts className full
    (Attribute.makeFor host Attribute.nestHostName fun name => indexBytes (Pool.classRef name))
      (host.toList.map Part.nestHost) :=
  puts_makeFor_take (fun V => readClassPart V className) (fun _ _ => rfl) host fun name =>
    puts_indexBytes (puts_classRef name)

theorem puts_nestMembers (members : List String) : PutsParts className full
    (Attribute.makeIf (!members.isEmpty) Attribute.nestMembersName (encodeClasses members))
      (if !members.isEmpty then [.nestMembers members] else []) :=
  puts_makeIf_take (fun V => readClassPart V className) (fun _ _ => rfl) _ (puts_classes members)

theorem puts_permitted (permitted : List String) : PutsParts className full
    (Attribute.makeIf (!permitted.isEmpty) Attribute.permittedSubclassesName (encodeClasses permitted))
      (if !permitted.isEmpty then [.permittedSubclasses permitted] else []) :=
  puts_makeIf_take (fun V => readClassPart V className) (fun _ _ => rfl) _ (puts_classes permitted)

theorem puts_innerClasses (inner : List InnerClass) : PutsParts className full
    (Attribute.makeIf (!inner.isEmpty) Attribute.innerClassesName (encodeList encodeInner inner))
      (if !inner.isEmpty then [.innerClasses inner] else []) :=
  puts_makeIf_take (fun V => readClassPart V className) (fun _ _ => rfl) _
    (puts_encodeList_self fun i _ => puts_innerClass i)

theorem puts_record (record : Option (List RecordComponent)) : PutsParts className full
    (Attribute.makeFor record Attribute.recordName (encodeList encodeComponent))
      (record.toList.map fun cs => .record (cs.map RecordComponent.readBack)) := by
  refine puts_makeFor (fun V => readClassPart V className) record _ fun cs _ =>
    (puts_components cs).mono fun V bytes hb => ?_
  exact hb.bind_nil fun a ha => .pure (ha ▸ rfl)

def moduleParts (m : ModuleInfo) : List Part :=
  .module m.bare :: (if !m.packages.isEmpty then [.modulePackages m.packages] else [])
    ++ m.mainClass.toList.map Part.moduleMainClass

theorem puts_moduleAttributes (m : ModuleInfo) : PutsParts className full (moduleAttributes m) (moduleParts m) := by
  have hmodule : Puts full (Attribute.make Attribute.moduleName (encodeModule m)) fun V attr =>
      attr.ReadAs V (readClassPart V className) (· = .module m.bare) := by
    refine putsIn_make (fun V => readClassPart V className) (P := fun _ _ p => p = Part.module m.bare)
      ((puts_moduleInfo m).mono fun V bytes hb => ?_)
    exact .take_map hb ⟨_, rfl, rfl⟩
  have hpackages : PutsParts className full (Attribute.makeIf (!m.packages.isEmpty) Attribute.modulePackagesName
      (encodeList (fun name => indexBytes (Pool.package name)) m.packages))
        (if !m.packages.isEmpty then [.modulePackages m.packages] else []) :=
    puts_makeIf_take (fun V => readClassPart V className) (fun _ _ => rfl) _
      (puts_encodeList_self fun name _ => puts_indexBytes (puts_package name))
  have hmain : PutsParts className full (Attribute.makeFor m.mainClass Attribute.moduleMainClassName
      fun name => indexBytes (Pool.classRef name)) (m.mainClass.toList.map Part.moduleMainClass) :=
    puts_makeFor_take (fun V => readClassPart V className) (fun _ _ => rfl) m.mainClass
      fun name => puts_indexBytes (puts_classRef name)
  refine hmodule.bind fun module => hpackages.bind fun packages => hmain.map fun V mainClass h₃ h₂ h₁ => ?_
  exact Attribute.AllReadAs.append (.cons h₁ h₂) h₃

end

theorem puts_optionalModule (m : Option ModuleInfo) :
    PutsParts className full (optionalModule m) (m.toList.flatMap moduleParts) := by
  cases m with
  | none => exact .pure fun V => .nil
  | some m =>
    rw [Option.toList_some, flatMap_singleton]
    exact puts_moduleAttributes className m

section
variable (events : List ClassEvent)

def sourceParts : List Part :=
  (Element.source events).1.toList.map Part.sourceFile ++ (Element.source events).2.toList.map Part.sourceDebug

def nestParts : List Part :=
  (Element.enclosingMethod events).toList.map enclosingPart ++ (Element.nestHost events).toList.map Part.nestHost
    ++ (if !(Element.nestMembers events).isEmpty then [.nestMembers (Element.nestMembers events)] else [])
    ++ (if !(Element.permittedSubclasses events).isEmpty then
      [.permittedSubclasses (Element.permittedSubclasses events)] else [])
    ++ (if !(Element.innerClasses events).isEmpty then [.innerClasses (Element.innerClasses events)] else [])

def recordParts : List Part := (Element.record events).toList.map fun cs => .record (cs.map RecordComponent.readBack)

/-- The parts of which the attributes of a class are made, but for the bootstrap methods. -/
def classParts : List Part := Part.ofElement events (sourceParts events) (nestParts events)
  (recordParts events ++ (Element.module events).toList.flatMap moduleParts)

/-- The parts of a class alone, but for its module. -/
def frontParts : List Part := sourceParts events ++ nestParts events ++ recordParts events

end

theorem puts_makeFor_of {γ : Type} (name : String) {body : γ → PoolM Bytes} {F : γ → Prop} (value : Option γ)
    (h : ∀ c, Puts full (body c) fun _ _ => F c) :
    Puts full (Attribute.makeFor value name body) fun _ _ => ∀ c ∈ value, F c := by
  cases value with
  | none => exact .pure fun _ _ hc => nomatch hc
  | some c =>
    have hmake : Puts full (Attribute.make name (body c)) fun _ _ => F c :=
      Puts.bind (puts_utf8 name) fun _ => ((h c).inPlace _).map fun _ _ _ hf _ => hf
    refine Puts.map hmake fun _ _ hf d hd => ?_
    cases hd
    exact hf

/-- **The attributes of a class are read back.** -/
theorem puts_ownAttributes (events : List ClassEvent) : Puts full (ownAttributes events) fun V attributes =>
      Attribute.AllReadAs V (readClassPart V className) attributes (classParts events) ∧
        Element.IsOutside events ∧ ∀ e ∈ Element.enclosingMethod events, e.2.1.isSome = e.2.2.isSome := by
  have henclosing := (@puts_enclosingAttribute full className (Element.enclosingMethod events)).and
    (puts_makeFor_of Attribute.enclosingMethodName (Element.enclosingMethod events) fun e =>
      (puts_enclosing e).mono fun _ _ h => h.2)
  refine (puts_sourceFile className (Element.source events).1).bind fun file =>
    (puts_sourceDebug className (Element.source events).2).bind fun debug =>
    (puts_signature (readsAny_class className) _).bind fun signature => henclosing.bind fun enclosing =>
    (puts_nestHost className _).bind fun host => (puts_nestMembers className _).bind fun members =>
    (puts_permitted className _).bind fun permitted => (puts_innerClasses className _).bind fun inner =>
    (puts_markers (readsMarkers_class className) events).bind fun markers =>
    (puts_annotationAttributes (readsAny_class className) _ _).bind fun annotations =>
    (puts_record className _).bind fun record => (puts_optionalModule className _).map
    fun V module h₁₂ h₁₁ h₁₀ h₉ h₈ h₇ h₆ h₅ h₄ h₃ h₂ h₁ => ⟨?_, h₁₀.2, h₄.2⟩
  have h := ((((((((((h₁.append h₂).append h₃).append h₄.1).append h₅).append h₆).append h₇).append h₈).append
    h₉).append h₁₀.1).append h₁₁).append h₁₂
  simpa only [classParts, sourceParts, nestParts, recordParts, Part.ofElement, append_assoc] using h

/-! ## The events of a class -/

def sourceReadBack (source : Option String × Option String) : List ClassEvent :=
  if source.1.isSome || source.2.isSome then [.source source.1 source.2] else []

def classReadBack (events : List ClassEvent) : List ClassEvent :=
  sourceReadBack (Element.source events)
    ++ (Element.signature events).toList.map ClassEvent.signature
    ++ (Element.enclosingMethod events).toList.map (fun e => ClassEvent.enclosingMethod e.1 e.2.1 e.2.2)
    ++ (Element.nestHost events).toList.map ClassEvent.nestHost
    ++ (Element.nestMembers events).map ClassEvent.nestMember
    ++ (Element.permittedSubclasses events).map ClassEvent.permittedSubclass
    ++ (Element.innerClasses events).map ClassEvent.innerClass
    ++ ((if Element.deprecated events then [ClassEvent.deprecated] else [])
      ++ (if Element.synthetic events then [ClassEvent.synthetic] else []))
    ++ Element.annotationEvents events
    ++ (Element.record events).toList.map (fun cs => ClassEvent.record (cs.map RecordComponent.readBack))
    ++ (Element.module events).toList.map ClassEvent.module

theorem filter_classParts : (classParts events).filter Part.isCommon = Part.common events := by
  refine Part.filter_ofElement events ?_ ?_ ?_
  all_goals
    intro p hp
    simp only [sourceParts, nestParts, recordParts, mem_append, mem_map, mem_ite_nil_right, mem_singleton, mem_flatMap] at hp
  · rcases hp with ⟨s, -, rfl⟩ | ⟨s, -, rfl⟩ <;> rfl
  · rcases hp with (((⟨e, -, rfl⟩ | ⟨name, -, rfl⟩) | ⟨-, rfl⟩) | ⟨-, rfl⟩) | ⟨-, rfl⟩ <;> rfl
  · rcases hp with ⟨cs, -, rfl⟩ | ⟨m, -, hp⟩
    · rfl
    · simp only [moduleParts, cons_append, mem_cons, mem_append, mem_ite_nil_right, mem_map,
        not_mem_nil, or_false] at hp
      rcases hp with rfl | ⟨-, rfl⟩ | ⟨name, -, rfl⟩ <;> rfl

def Part.isModule : Part → Bool
  | module _ | modulePackages _ | moduleMainClass _ => true
  | _ => false

theorem moduleOf?_moduleParts (m : Option ModuleInfo) : moduleOf? (m.toList.flatMap moduleParts) = m := by
  cases m with
  | none => rfl
  | some m =>
    obtain ⟨name, access, version, requires, exports, opens, uses, provides, packages, mainClass⟩ := m
    simp only [Option.toList_some, flatMap_singleton]
    cases packages <;> cases mainClass <;> rfl

theorem isModule_of_mem_frontParts {events : List ClassEvent} {p : Part} (hp : p ∈ frontParts events) :
    p.isModule = false := by
  simp only [frontParts, sourceParts, nestParts, recordParts, mem_append, mem_map, mem_ite_nil_right, mem_singleton] at hp
  rcases hp with ((⟨s, -, rfl⟩ | ⟨s, -, rfl⟩) | (((⟨e, -, rfl⟩ | ⟨name, -, rfl⟩) | ⟨-, rfl⟩) | ⟨-, rfl⟩) | ⟨-, rfl⟩) |
    ⟨cs, -, rfl⟩ <;> rfl

theorem isModule_of_mem_moduleParts {m : ModuleInfo} {p : Part} (hp : p ∈ moduleParts m) : p.isModule = true := by
  simp only [moduleParts, cons_append, mem_cons, mem_append, mem_ite_nil_right, mem_map,
    not_mem_nil, or_false] at hp
  rcases hp with rfl | ⟨-, rfl⟩ | ⟨name, -, rfl⟩ <;> rfl

section
variable (events : List ClassEvent) (boot : List (List (Handle × List UInt16)))

def allParts : List Part := classParts events ++ boot.map Part.bootstrapMethods

theorem filter_allParts : (allParts events boot).filter Part.isCommon = Part.common events := by
  rw [allParts, filter_append, filter_classParts, filter_eq_nil_iff.2, append_nil]
  intro p hp
  obtain ⟨l, -, rfl⟩ := mem_map.1 hp
  simp [Part.isCommon]

section
variable {α : Type} {f : Part → Option α} (hc : ∀ p, p.isCommon = true → f p = none)
  (hb : ∀ l, f (.bootstrapMethods l) = none)
include hc hb

theorem filterMap_allParts : (allParts events boot).filterMap f =
    (frontParts events).filterMap f ++ ((Element.module events).toList.flatMap moduleParts).filterMap f := by
  have hboot : (boot.map Part.bootstrapMethods).filterMap f = [] := by simp [filterMap_map, hb]
  rw [allParts, filterMap_append, hboot, append_nil, classParts, Part.filterMap_ofElement hc, ← filterMap_append,
    frontParts]
  simp only [append_assoc]

theorem filterMap_front (hm : ∀ p, p.isModule = true → f p = none) :
    (allParts events boot).filterMap f = (frontParts events).filterMap f := by
  have hnil : ((Element.module events).toList.flatMap moduleParts).filterMap f = [] := by
    refine filterMap_eq_nil_iff.2 fun p hp => ?_
    obtain ⟨m, -, hp⟩ := mem_flatMap.1 hp
    exact hm p (isModule_of_mem_moduleParts hp)
  rw [filterMap_allParts events boot hc hb, hnil, append_nil]

theorem filterMap_module (hm : ∀ p, p.isModule = false → f p = none) :
    (allParts events boot).filterMap f = ((Element.module events).toList.flatMap moduleParts).filterMap f := by
  rw [filterMap_allParts events boot hc hb, filterMap_eq_nil_iff.2, nil_append]
  exact fun p hp => hm p (isModule_of_mem_frontParts hp)

end

theorem moduleOf?_allParts : moduleOf? (allParts events boot) = Element.module events := by
  rw [← moduleOf?_moduleParts (Element.module events), moduleOf?, moduleOf?, Part.last?, Part.last?, Part.last?, Part.last?,
    Part.last?, Part.last?]
  rw [filterMap_module, filterMap_module, filterMap_module]
  all_goals
    intro p
    first
    | rfl
    | intro hp
      cases p <;> first | rfl | cases hp

theorem enclosing_frontParts (he : ∀ e ∈ Element.enclosingMethod events, e.2.1.isSome = e.2.2.isSome) :
    ((Element.enclosingMethod events).toList.map fun e => ClassEvent.enclosingMethod e.1
      ((e.2.1.bind fun name => e.2.2.map fun descriptor => (name, descriptor)).map Prod.fst)
      ((e.2.1.bind fun name => e.2.2.map fun descriptor => (name, descriptor)).map Prod.snd)) =
    (Element.enclosingMethod events).toList.map fun e => ClassEvent.enclosingMethod e.1 e.2.1 e.2.2 := by
  refine map_congr_left fun e h => ?_
  obtain ⟨owner, name, descriptor⟩ := e
  have h := he _ (Option.mem_toList.1 h)
  cases name <;> cases descriptor <;> first | rfl | cases h

theorem sourceEvents_eq (ps : List Part) : sourceEvents ps = sourceReadBack
    (Part.last? (fun | .sourceFile s => some s | _ => none) ps,
      Part.last? (fun | .sourceDebug s => some s | _ => none) ps) :=
  rfl

theorem classEvents_allParts (header : ClassHeader) (ho : Element.IsOutside events)
    (he : ∀ e ∈ Element.enclosingMethod events, e.2.1.isSome = e.2.2.isSome) :
    classEvents header (allParts events boot) = .header header :: classReadBack events := by
  have hc := filter_allParts events boot
  simp only [classEvents, Part.signatureEvents_of_common hc, Part.markerEvents_of_common hc,
    Part.annotationEvents_of_common hc ho, moduleOf?_allParts, sourceEvents_eq, Part.last?]
  rw [filterMap_front, filterMap_front, filterMap_front, filterMap_front, filterMap_front, filterMap_front, filterMap_front,
    filterMap_front, classReadBack, ← enclosing_frontParts events he]
  · simp only [frontParts, sourceParts, nestParts, recordParts, filterMap_append, filterMap_ite, filterMap_map,
      Function.comp_def, filterMap_none, filterMap_some, Option.toList_none, Option.toList_some, ite_self, nil_append,
      append_nil, enclosingPart, getD_getLast?_ite, getLast?_toList, append_assoc, filterMap_eq_map']
    cases Element.record events <;> rfl
  all_goals
    intro p
    first
    | rfl
    | intro hp
      cases p <;> first | rfl | cases hp

end

end ClassDoc
