/-
  A class file is read back.
-/
import ClassDoc.Proofs.ClassFile.Class
import ClassDoc.Proofs.ClassFile.Written
namespace ClassDoc

open List

/-! ## Parts of a class file -/

variable {events : List ClassEvent} {bytes : Bytes} {parts : List Bytes} {P : Pool} {V : PoolView}

theorem consumes_repeatRead {x : ReadM Unit} {outs : List (List ClassEvent)}
    (h : Forall₂ (fun bytes out => Consumes x bytes out fun _ => True) parts outs) :
    Consumes (repeatRead x parts.length) parts.flatten outs.flatten fun _ => True := by
  induction h with
  | nil => exact .pure trivial
  | cons hx _ ih => exact hx.bind fun _ _ => ih

theorem decodes_skipMembers {count : Bytes} (hc : Bytes.count2 parts.length = .ok count)
    (h : ∀ bytes ∈ parts, Decodes skipMember bytes ()) : Decodes skipMembers (count ++ parts.flatten) () := by
  have hparts : Forall₂ (Decodes skipMember) parts (parts.map fun _ => ()) :=
    forall₂_map_right_iff.2 (forall₂_same.2 h)
  rw [← length_map (fun _ => ())] at hc
  exact (Decodes.list hc hparts).bind_nil (.pure ())

theorem consumes_warnIf {α : Type} {x : Unit → ReadM α} {P : α → Prop}
    (condition : Bool) (w : Warning) (h : Consumes (x ()) bytes events P) :
    Consumes (if condition then warn w >>= x else x ()) bytes events P := by
  cases condition with
  | true =>
    have hw : Consumes (warn w : ReadM Unit) [] [] fun _ => True := fun rest n items =>
      ⟨(), [.warning w], rfl, trivial, rfl⟩
    exact hw.bind fun _ _ => h
  | false => exact h

/-! ## The header -/

theorem decodes_decodeVersion {version : Version} (h : version.major ≤ maxMajor) :
    Decodes decodeVersion (Bytes.u4 ClassWriter.magic ++ (Bytes.u2 version.minor ++ Bytes.u2 version.major)) version := by
  refine (decodes_u4 _).bind ?_
  rw [if_neg (by simp)]
  refine (decodes_u2 _).bind ((decodes_u2 _).bind_nil ?_)
  rw [if_neg (UInt16.not_lt.2 h)]
  exact .pure version

theorem puts_headerIndices {full : Bool} (header : ClassHeader) :
    Puts full (ClassWriter.headerIndices header) fun V w => w.version = header.version ∧
      ∀ count, Bytes.count2 w.interfaces.length = .ok count → Decodes (decodeHeader header.version V)
        (Bytes.u2 w.access ++ (Bytes.u2 w.thisClass ++ (Bytes.u2 w.superClass ++ (count ++ w.interfaces.flatMap Bytes.u2))))
        header := by
  refine (Puts.mapM fun name _ => puts_classRef name).bind fun interfaces => (puts_classRef header.name).bind fun this =>
    (puts_optionalClass header.superClass).map fun V super hsuper hthis hinterfaces => ⟨rfl, fun count hc => ?_⟩
  have hclasses : Decodes (decodeClasses V) (count ++ interfaces.flatMap Bytes.u2) header.interfaces := by
    rw [flatMap_def]
    refine .list (hinterfaces.length_eq ▸ hc) (forall₂_map_left_iff.2 ?_)
    exact hinterfaces.flip.imp fun i name hi => decodes_index hi
  exact (decodes_u2 _).bind ((decodes_index hthis).bind ((decodes_index hsuper).bind hclasses.map))

/-! ## The bootstrap methods -/

theorem bootstrapAttribute_cases {p q : Pool} {attributes : List Attribute} (h : bootstrapAttribute p = .ok attributes q) :
    (p.methodCount = 0 ∧ attributes = [] ∧ p = q) ∨ ∃ name table, Pool.utf8 Attribute.bootstrapMethodsName p = .ok name q ∧
      q.encodeMethods = .ok table ∧ attributes = [⟨name, table⟩] := by
  obtain ⟨_, _, hg, h⟩ := run_bind_eq_ok.1 h
  cases hg
  split at h
  next hc =>
    cases h
    exact .inl ⟨hc, rfl, rfl⟩
  next =>
    obtain ⟨attr, r, ha, h⟩ := run_bind_eq_ok.1 h
    cases h
    obtain ⟨name, r, hn, ha⟩ := run_bind_eq_ok.1 ha
    obtain ⟨table, r', ht, ha⟩ := run_bind_eq_ok.1 ha
    obtain ⟨_, _, hg, ht⟩ := run_bind_eq_ok.1 (inPlace_eq_ok.1 ht)
    cases hg
    obtain ⟨he, rfl⟩ := run_lift_eq_ok.1 ht
    cases ha
    exact .inr ⟨name, table, hn, he, rfl⟩

/-- **The bootstrap methods are found in their attribute, if there are any.** -/
theorem bootstrapAttribute_eq_ok {p q : Pool} {attributes : List Attribute} (hp : p.WF)
    (h : bootstrapAttribute p = .ok attributes q) : q.WF ∧ p ≤ q ∧ ∃ boot : List (List (Handle × List UInt16)),
      PoolView.Covers { entries := q.slots.toArray, methods := boot.getLast?.getD [] } true q ∧
      ∀ className, Forall₂ (Attribute.ReadAs { entries := q.slots.toArray }
        (readClassPart { entries := q.slots.toArray } className)) attributes
          (exactly (boot.map Part.bootstrapMethods)) := by
  rcases bootstrapAttribute_cases h with ⟨hc, rfl, rfl⟩ | ⟨name, table, hn, he, rfl⟩
  · obtain ⟨methods, hm⟩ := hp.exists_methods
    have hnil : p.methods = [] := eq_nil_of_length_eq_zero (hp.methodCount ▸ hc)
    obtain rfl : methods = [] := by simpa [hnil] using hm
    exact ⟨hp, le_rfl, [], Pool.covers_of_methods true hm, fun _ => .nil⟩
  · have hs := @puts_utf8 true Attribute.bootstrapMethodsName _ _ _ hp hn
    have hname := @puts_utf8 false Attribute.bootstrapMethodsName _ _ _ hp.tables hn
    obtain ⟨methods, hm⟩ := hs.wf.exists_methods
    refine ⟨hs.wf, hs.le, [methods], Pool.covers_of_methods true hm, fun className => .cons ⟨_,
      hname.seen _ _ hname.wf le_rfl (PoolView.covers_slots _ []), ?_⟩ .nil⟩
    rw [readClassPart, if_pos rfl]
    exact .take_map (Pool.decodes_encodeMethods hs.wf hm he) ⟨_, rfl, rfl⟩

/-! ## The class file -/

namespace Elements

def Loads (s : Elements) : Prop := ∀ m ∈ s.methods, ∀ i, .insn i ∈ Element.code m.2 → i.loads = true

/-- The elements `t` are what is read back of `s`. -/
structure ReadBack (P : Pool) (s t : Elements) : Prop where
  header : t.header = s.header
  events : t.events = classReadBack s.events
  fields : t.fields = s.fields.map fun f => (f.1, Element.headEvents f.2 ++ Element.annotationEvents f.2)
  methods : Forall₂ (fun m n => MethodReadAs P m.1 m.2 (.method n.1 :: n.2)) s.methods t.methods

end Elements

theorem last?_allParts {f : Part → Option (List (Handle × List UInt16))} (hb : ∀ l, f (.bootstrapMethods l) = some l)
    (hn : ∀ p, (∀ l, p ≠ .bootstrapMethods l) → f p = none) (events : List ClassEvent)
    (boot : List (List (Handle × List UInt16))) : Part.last? f (allParts events boot) = boot.getLast? := by
  have hclass : (classParts events).filterMap f = [] := by
    rw [classParts, Part.filterMap_ofElement, filterMap_eq_nil_iff]
    · intro p hp
      simp only [sourceParts, nestParts, recordParts, mem_append, mem_map, mem_ite_nil_right, mem_singleton,
        mem_flatMap] at hp
      refine hn p fun l hl => ?_
      subst hl
      rcases hp with ((⟨s, -, h⟩ | ⟨s, -, h⟩) | ((((⟨e, -, h⟩ | ⟨name, -, h⟩) | ⟨-, h⟩) | ⟨-, h⟩) | ⟨-, h⟩)) |
        (⟨cs, -, h⟩ | ⟨m, -, h⟩)
      all_goals first | cases isModule_of_mem_moduleParts h | cases h
    · intro p hp
      refine hn p fun l hl => ?_
      subst hl
      cases hp
  have hboot : f ∘ Part.bootstrapMethods = some := funext hb
  rw [Part.last?, allParts, filterMap_append, hclass, nil_append, filterMap_map, hboot, filterMap_some]

theorem consumes_readMembers {fieldCount methodCount : Bytes} {fields methods : List Bytes}
    {fieldOuts methodOuts : List (List ClassEvent)} (hf : Bytes.count2 fields.length = .ok fieldCount)
    (hm : Bytes.count2 methods.length = .ok methodCount)
    (hfields : Forall₂ (fun bytes out => Consumes (readField V) bytes out fun _ => True) fields fieldOuts)
    (hmethods : Forall₂ (fun bytes out => Consumes (readMethod V) bytes out fun _ => True) methods methodOuts) :
    Consumes (readMembers V) (fieldCount ++ (fields.flatten ++ (methodCount ++ methods.flatten)))
      (fieldOuts.flatten ++ methodOuts.flatten) fun _ => True := by
  obtain ⟨hdf, hnf⟩ := count2_eq_ok hf
  obtain ⟨hdm, hnm⟩ := count2_eq_ok hm
  refine .take_bind hdf ?_
  rw [hnf]
  refine (consumes_repeatRead hfields).bind fun _ _ => .take_bind hdm ?_
  rw [hnm]
  exact consumes_repeatRead hmethods

theorem readEvents_of_consumes (h : Consumes readClass bytes events fun _ => True) : readEvents bytes = .ok events := by
  obtain ⟨a, new, hr, -, he⟩ := h [] 0 []
  rw [append_nil] at hr
  rw [readEvents, readTrace, traceOf, hr]
  simp only [append_nil, Trace.events, he]
  rfl

theorem exists_methodsReadAs {methods : List (MethodHeader × List ClassEvent)}
    (h : Forall₂ (fun m bytes => (∃ out, MethodReadAs P m.1 m.2 out ∧
      Consumes (readMethod V) bytes out fun _ => True) ∧ Decodes skipMember bytes ()) methods parts) :
    ∃ read : List (MethodHeader × List ClassEvent),
      Forall₂ (fun m n => MethodReadAs P m.1 m.2 (.method n.1 :: n.2)) methods read ∧
      Forall₂ (fun bytes out => Consumes (readMethod V) bytes out fun _ => True) parts
        (read.map fun n => .method n.1 :: n.2) := by
  induction h with
  | nil => exact ⟨[], .nil, .nil⟩
  | @cons m bytes methods parts hm _ ih =>
    obtain ⟨read, hread, hparts⟩ := ih
    obtain ⟨⟨_, ⟨arguments, result, code, hs, hrange, hc, rfl⟩, hb⟩, -⟩ := hm
    exact ⟨(m.1, (methodReadBack m.1 arguments.length m.2).tail ++ code.map ClassEvent.code) :: read,
      .cons ⟨arguments, result, code, hs, hrange, hc, rfl⟩ hread, .cons hb hparts⟩

theorem ElementBytes.encode_eq_ok {b : ElementBytes} (h : b.encode P = .ok bytes) :
    ∃ entries interfaceCount fieldCount methodCount attributes, P.encode = .ok entries ∧
      Bytes.count2 b.header.interfaces.length = .ok interfaceCount ∧ Bytes.count2 b.fields.length = .ok fieldCount ∧
      Bytes.count2 b.methods.length = .ok methodCount ∧ Attribute.encodeAll b.attributes = .ok attributes ∧
      bytes = (Bytes.u4 ClassWriter.magic ++ (Bytes.u2 b.header.version.minor ++ Bytes.u2 b.header.version.major)) ++
        (entries ++ ((Bytes.u2 b.header.access ++ (Bytes.u2 b.header.thisClass ++ (Bytes.u2 b.header.superClass
          ++ (interfaceCount ++ b.header.interfaces.flatMap Bytes.u2)))) ++
        ((fieldCount ++ b.fields.flatten) ++ ((methodCount ++ b.methods.flatten) ++ attributes)))) := by
  obtain ⟨front, hfront, h⟩ := bind_eq_ok.1 h
  obtain ⟨fieldCount, hfc, h⟩ := bind_eq_ok.1 h
  obtain ⟨methodCount, hmc, h⟩ := bind_eq_ok.1 h
  obtain ⟨attributes, ha, h⟩ := bind_eq_ok.1 h
  obtain rfl := Except.ok.inj h
  obtain ⟨entries, hentries, hfront⟩ := bind_eq_ok.1 hfront
  obtain ⟨interfaceCount, hic, hfront⟩ := bind_eq_ok.1 hfront
  obtain rfl := Except.ok.inj hfront
  exact ⟨entries, interfaceCount, fieldCount, methodCount, attributes, hentries, hic, hfc, hmc, ha,
    by simp only [append_assoc]⟩

theorem consumes_readClass {b : ElementBytes} {header : ClassHeader}
    {boot : List (List (Handle × List UInt16))} {fieldOuts methodOuts : List (List ClassEvent)}
    (hP : P.WF) (hb : b.encode P = .ok bytes) (hv : header.version.major ≤ maxMajor)
    (hheader : b.header.version = header.version ∧ ∀ count, Bytes.count2 b.header.interfaces.length = .ok count →
      Decodes (decodeHeader header.version { entries := P.slots.toArray })
        (Bytes.u2 b.header.access ++ (Bytes.u2 b.header.thisClass ++ (Bytes.u2 b.header.superClass
          ++ (count ++ b.header.interfaces.flatMap Bytes.u2)))) header)
    (hskip : (∀ bytes ∈ b.fields, Decodes skipMember bytes ()) ∧ ∀ bytes ∈ b.methods, Decodes skipMember bytes ())
    (hattributes : Forall₂ (Attribute.ReadAs { entries := P.slots.toArray }
      (readClassPart { entries := P.slots.toArray } header.name)) b.attributes (exactly (allParts events boot)))
    (ho : Element.IsOutside events) (he : ∀ e ∈ Element.enclosingMethod events, e.2.1.isSome = e.2.2.isSome)
    (hfields : Forall₂ (fun bytes out => Consumes (readField
      { entries := P.slots.toArray, methods := boot.getLast?.getD [] }) bytes out fun _ => True) b.fields fieldOuts)
    (hmethods : Forall₂ (fun bytes out => Consumes (readMethod
      { entries := P.slots.toArray, methods := boot.getLast?.getD [] }) bytes out fun _ => True) b.methods methodOuts) :
    Consumes readClass bytes (.header header :: classReadBack events ++ (fieldOuts.flatten ++ methodOuts.flatten ++ [.done]))
      fun _ => True := by
  obtain ⟨entries, interfaceCount, fieldCount, methodCount, attributes, hentries, hic, hfc, hmc, ha, rfl⟩ :=
    ElementBytes.encode_eq_ok hb
  have hmembers := consumes_readMembers hfc hmc hfields hmethods
  rw [hheader.1]
  refine .take_bind (decodes_decodeVersion hv) (.take_bind (PoolView.decodes_encode hP.tables hentries)
    (.take_bind (hheader.2 interfaceCount hic) (.get_bind fun rest n _ => ?_)))
  refine .take_bind (decodes_skipMembers hfc hskip.1) (.take_bind (decodes_skipMembers hmc hskip.2) ?_)
  refine (consumes_attributes hattributes ha).bind_nil fun parts hparts => ?_
  rw [eq_of_exactly hparts]
  refine consumes_warnIf _ _ ?_
  dsimp only
  rw [classEvents_allParts _ _ header ho he]
  refine (Consumes.emitEvents (.header header :: classReadBack events)).bind_nil fun _ _ => ?_
  rw [last?_allParts]
  · have hinput : fieldCount ++ b.fields.flatten ++ (methodCount ++ b.methods.flatten ++ attributes) ++ rest =
        fieldCount ++ (b.fields.flatten ++ (methodCount ++ b.methods.flatten)) ++ (attributes ++ rest) := by
      simp only [append_assoc]
    rw [hinput]
    exact ((consumes_readAt hmembers (attributes ++ rest) n).inside (.inClass header.name)).bind_nil
      fun _ _ => Consumes.emitEvents [.done]
  · exact fun l => rfl
  · intro p hp
    cases p with
    | bootstrapMethods l => exact absurd rfl (hp l)
    | _ => rfl

/-- **From the class file of a class, its elements are read back.** -/
theorem exists_readBack {s : Elements} (hs : s.Proper) (hl : s.Loads) (hv : s.header.version.major ≤ maxMajor)
    (h : writeEvents s.flatten = .ok bytes) :
    ∃ (b : ElementBytes) (P : Pool) (t : Elements), s.putAll {} = .ok b P ∧ s.ReadBack P t ∧
      readEvents bytes = .ok t.flatten := by
  obtain ⟨b, P, hall, hb⟩ := (writeEvents_flatten hs).1 h
  have hput := hall
  obtain ⟨written, p₁, hheader, hput⟩ := run_bind_eq_ok.1 hput
  obtain ⟨fields, p₂, hfields, hput⟩ := run_bind_eq_ok.1 hput
  obtain ⟨methods, p₃, hmethods, hput⟩ := run_bind_eq_ok.1 hput
  obtain ⟨attributes, p₄, hattributes, hput⟩ := run_bind_eq_ok.1 hput
  cases hput
  obtain ⟨own, p₄, hown, hattributes⟩ := run_bind_eq_ok.1 hattributes
  obtain ⟨bootstrap, p₅, hboot, hattributes⟩ := run_bind_eq_ok.1 hattributes
  cases hattributes
  have h₁ := @puts_headerIndices true s.header _ _ _ Pool.wf_empty hheader
  have h₂ := (Puts.mapM fun f _ => @puts_fieldBytes true f.1 f.2) h₁.wf hfields
  have h₃ := (PutsIn.mapM fun m hm => putsIn_methodBytes m.1 m.2 (Body.loads_items (hl m hm))) h₂.wf hmethods
  have h₄ := @puts_ownAttributes true s.header.name s.events _ _ _ h₃.wf hown
  obtain ⟨hP, hle, boot, hcover, hbootstrap⟩ := bootstrapAttribute_eq_ok h₄.wf hboot
  -- the class is read with the entries alone, the members with the bootstrap methods as well
  have hview := PoolView.covers_slots P []
  have h₁ := (@puts_headerIndices false s.header _ _ _ Pool.tables_empty hheader).seen P _ hP.tables
    (h₂.le.trans (h₃.le.trans (h₄.le.trans hle))) hview
  obtain ⟨hread, ho, he⟩ := (@puts_ownAttributes false s.header.name s.events _ _ _ h₃.wf.tables hown).seen P _ hP.tables
    hle hview
  have h₂ := h₂.seen P _ hP (h₃.le.trans (h₄.le.trans hle)) hcover
  have h₃ := h₃.seen P _ hP (h₄.le.trans hle) hcover
  obtain ⟨read, hr, hm⟩ := exists_methodsReadAs h₃
  have hf : Forall₂ (fun bytes out => Consumes (readField
      { entries := P.slots.toArray, methods := boot.getLast?.getD [] }) bytes out fun _ => True) fields
        (s.fields.map fun f => fieldReadBack f.1 f.2) :=
    forall₂_map_right_iff.2 (h₂.flip.imp fun bytes f h => h.1)
  refine ⟨_, P, ⟨s.header, classReadBack s.events,
    s.fields.map fun f => (f.1, Element.headEvents f.2 ++ Element.annotationEvents f.2), read⟩, hall,
      ⟨rfl, rfl, rfl, hr⟩, ?_⟩
  have hskip : (∀ bytes ∈ fields, Decodes skipMember bytes ()) ∧ ∀ bytes ∈ methods, Decodes skipMember bytes () := by
    refine ⟨fun bytes hb => ?_, fun bytes hb => ?_⟩
    · obtain ⟨_, _, h⟩ := exists_of_mem_right h₂ hb
      exact h.2
    · obtain ⟨_, _, h⟩ := exists_of_mem_right h₃ hb
      exact h.2
  have hc := consumes_readClass hP hb hv h₁ hskip (by
    rw [allParts, exactly_append]
    exact rel_append hread (hbootstrap _)) ho he hf hm
  rw [readEvents_of_consumes hc]
  simp only [Elements.flatten, flatMap_def, map_map, Function.comp_def, cons_append, append_assoc]
  rfl

/-! ## What is read -/

namespace Element

variable {events : List ClassEvent}

theorem level_headEvents : ∀ e ∈ headEvents events, e.level = .element := by
  intro e he
  simp only [headEvents, mem_append, mem_map, mem_ite_nil_right, mem_singleton] at he
  rcases he with (⟨s, -, rfl⟩ | ⟨-, rfl⟩) | ⟨-, rfl⟩ <;> rfl

theorem level_annotationEvents : ∀ e ∈ annotationEvents events, e.level = .element := by
  intro e he
  simp only [annotationEvents, mem_append, mem_map] at he
  rcases he with ⟨a, -, rfl⟩ | ⟨a, -, rfl⟩ <;> rfl

end Element

theorem isInClass_classReadBack : ∀ e ∈ classReadBack events, e.isInClass = true := by
  intro e he
  have ha : e ∈ Element.annotationEvents events → e.isInClass = true := fun he => by
    rw [ClassEvent.isInClass, Element.level_annotationEvents e he]
    rfl
  simp only [classReadBack, sourceReadBack, mem_append, mem_map, mem_ite_nil_right, mem_singleton] at he
  rcases he with (((((((((⟨-, rfl⟩ | ⟨s, -, rfl⟩) | ⟨s, -, rfl⟩) | ⟨s, -, rfl⟩) | ⟨s, -, rfl⟩) | ⟨s, -, rfl⟩) | ⟨s, -, rfl⟩)
    | (⟨-, rfl⟩ | ⟨-, rfl⟩)) | he) | ⟨s, -, rfl⟩) | ⟨s, -, rfl⟩
  all_goals first | rfl | exact ha he

theorem isInMethod_methodReadBack {header : MethodHeader} {arguments : Nat} :
    ∀ e ∈ (methodReadBack header arguments events).tail, e.isInMethod = true := by
  intro e he
  have hlevel : e.level = .element → e.isInMethod = true := fun h => by
    rw [ClassEvent.isInMethod, h]
    rfl
  have hp : ∀ visible,
      e ∈ (if hasParameterAnnotations visible events then parameterEvents visible arguments events else []) →
      e.isInMethod = true := by
    intro visible he
    simp only [mem_ite_nil_right, parameterEvents, countedParameters, annotatedParameters, mem_append, mem_flatMap,
      mem_map, mem_ite_nil_left, mem_singleton] at he
    rcases he with ⟨-, ⟨-, rfl⟩ | ⟨i, -, a, -, rfl⟩⟩ <;> rfl
  simp only [methodReadBack, tail_cons, mem_append, mem_map] at he
  rcases he with ((((he | ⟨q, -, rfl⟩) | he) | he) | he) | ⟨v, -, rfl⟩
  · exact hlevel (Element.level_headEvents e he)
  · rfl
  · exact hlevel (Element.level_annotationEvents e he)
  · exact hp true he
  · exact hp false he
  · rfl

theorem Elements.ReadBack.proper {s t : Elements} (h : s.ReadBack P t) : t.Proper where
  events := by
    rw [h.events]
    exact isInClass_classReadBack
  fields := by
    rw [h.fields]
    simp only [forall_mem_map, forall_mem_append]
    exact fun f _ => ⟨Element.level_headEvents, Element.level_annotationEvents⟩
  methods n hn := by
    obtain ⟨m, -, arguments, result, code, -, -, -, hm⟩ := exists_of_mem_right h.methods hn
    have hn : n.2 = (methodReadBack m.1 arguments.length m.2).tail ++ code.map .code := congrArg List.tail hm
    rw [hn, forall_mem_append, forall_mem_map]
    exact ⟨isInMethod_methodReadBack, fun _ _ => rfl⟩

end ClassDoc
