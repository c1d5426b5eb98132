/-
  The annotations on types and parameters of a class file: their targets, and their order.
-/
import ClassDoc.Proofs.ClassFile.File
import ClassDoc.Proofs.ClassFile.Reading
import ClassDoc.Proofs.Code.Form
import ClassDoc.Proofs.Model.Code
namespace ClassDoc

open List

variable {α β : Type} {bytes : Bytes} {events : List ClassEvent} {pool : PoolView} {i j : Input}

/-! ## Targets -/

/-- The forms of targets that only code has. -/
def TargetType.Form.isInCode : TargetType.Form → Bool
  | localVariable | .catch | offset | typeArgument => true
  | _ => false

theorem TypeTarget.isCode_iff {L : Type} {target : TypeTarget L} {t : UInt8} (h : target.fits t = true) :
    TargetType.isCode t = target.form.isInCode := by
  have hall : ∀ t : UInt8, ∀ form ∈ TargetType.form? t, TargetType.isCode t = form.isInCode :=
    Opcode.forall_of_lt (by decide +kernel)
  exact hall t _ (eq_of_beq h)

theorem CodeRead.fits {start : Input} (c : CodeRead pool start) :
    ∀ a ∈ c.raw.typeAnnotations, a.2.target.fits a.2.targetType = true := by
  intro a ha
  obtain ⟨p, hp, ha⟩ := mem_flatMap.1 ha
  have hs := Yields.of_mem_partsOf (yields_readCodePart pool _) c.readsTables p hp
  split at ha
  next visible l =>
    obtain ⟨b, hb, rfl⟩ := mem_map.1 ha
    exact hs b hb
  next => cases ha

theorem MethodRead.At.fits {m : MethodRead pool} (h : m.At i j) {visible : Bool} {a : TypeAnnotation Label}
    (ha : .annotateType visible a ∈ m.codeEvents) : a.target.fits a.targetType = true := by
  cases hc : m.code with
  | none =>
    rw [h.none hc] at ha
    cases ha
  | some c =>
    have hm : (visible, a) ∈ (Body.ofEvents m.codeEvents).typeAnnotations := mem_filterMap.2 ⟨_, ha, rfl⟩
    rw [(RawCode.ofEvents_parts (h.events c hc)).1] at hm
    obtain ⟨b, hb, hba⟩ := mem_map.1 hm
    cases hba
    exact (b.2.fits_map _).trans (c.2.fits b hb)

theorem ClassRead.fits (c : ClassRead bytes) {visible : Bool} {a : TypeAnnotation Label}
    (ha : .code (.annotateType visible a) ∈ c.elements.flatten) : a.target.fits a.targetType = true := by
  simp only [Elements.flatten, mem_cons, mem_append, mem_flatMap, not_mem_nil, or_false, reduceCtorEq, false_or] at ha
  rcases ha with (ha | ⟨f, hf, ha⟩) | ⟨m, hm, ha⟩
  · cases c.proper.events _ ha
  · cases c.proper.fields f hf _ ha
  · obtain ⟨r, hr, rfl⟩ := mem_map.1 hm
    obtain ⟨_, _, hat⟩ := c.methodsAt.exists_at r hr
    rcases mem_append.1 ha with ha | ha
    · cases (hat.isHead _ ha).2.1
    · obtain ⟨e, he, hea⟩ := mem_map.1 ha
      cases hea
      exact hat.fits he

/-! ## A class with one method -/

/-- The class file of a class with one method. The name of the class is the second constant. -/
def methodClass (constants method : Bytes) : Bytes :=
  (Bytes.u4 ClassWriter.magic ++ (Bytes.u2 0 ++ Bytes.u2 52)) ++ (constants ++
    ((Bytes.u2 33 ++ (Bytes.u2 2 ++ (Bytes.u2 0 ++ [0, 0]))) ++ ([0, 0] ++ (([0, 1] ++ [method].flatten) ++ [0, 0]))))

theorem readEvents_methodClass {constants method : Bytes} {name : String} (hV : Decodes PoolView.decode constants pool)
    (hn : pool.classRef 2 = .ok name) (hs : Decodes skipMember method ())
    (hm : Consumes (readMethod { pool with methods := [] }) method events fun _ => True) :
    readEvents (methodClass constants method) =
      .ok (.header ⟨⟨52, 0⟩, 33, name, none, []⟩ :: ([events].flatten ++ [.done])) := by
  have hversion : Decodes decodeVersion (Bytes.u4 ClassWriter.magic ++ (Bytes.u2 0 ++ Bytes.u2 52)) ⟨52, 0⟩ :=
    @decodes_decodeVersion ⟨52, 0⟩ (by decide)
  have hheader : Decodes (decodeHeader ⟨52, 0⟩ pool) (Bytes.u2 33 ++ (Bytes.u2 2 ++ (Bytes.u2 0 ++ [0, 0])))
      ⟨⟨52, 0⟩, 33, name, none, []⟩ :=
    (decodes_u2 33).bind ((decodes_index hn).bind fun _ _ => rfl)
  have hcount : Bytes.count2 [method].length = .ok [0, 1] := show Bytes.count2 1 = .ok [0, 1] from rfl
  have hmembers : Consumes (readMembers { pool with methods := [] }) ([0, 0] ++ ([] ++ ([0, 1] ++ [method].flatten)))
      ([].flatten ++ [events].flatten) fun _ => True :=
    consumes_readMembers rfl hcount .nil (.cons hm .nil)
  have hfields : Decodes skipMembers [0, 0] () := fun _ _ => rfl
  have hmethods : Decodes skipMembers ([0, 1] ++ [method].flatten) () :=
    decodes_skipMembers hcount (forall_mem_singleton.2 hs)
  have hattributes : Consumes (readAttributes pool (readClassPart pool name)) [0, 0] [] (· = []) :=
    fun _ _ _ => ⟨[], [], rfl, rfl, rfl⟩
  refine readEvents_of_consumes (.take_bind hversion (.take_bind hV (.take_bind hheader (.get_bind fun rest n _ => ?_))))
  refine .take_bind hfields (.take_bind hmethods (hattributes.bind_nil fun parts hparts => ?_))
  subst hparts
  refine (Consumes.emitEvents [.header ⟨⟨52, 0⟩, 33, name, none, []⟩]).bind_nil fun _ _ => ?_
  have hinput : [0, 0] ++ ([0, 1] ++ [method].flatten ++ [0, 0]) ++ rest =
      [0, 0] ++ ([] ++ ([0, 1] ++ [method].flatten)) ++ ([0, 0] ++ rest) := by
    simp only [append_assoc, nil_append]
  rw [hinput]
  exact ((consumes_readAt hmembers ([0, 0] ++ rest) n).inside _).bind_nil fun _ _ => Consumes.emitEvents [.done]

theorem consumes_codeMethod {access n d c : UInt16} {name descriptor : String} {code body : Bytes}
    {codeEvents : List CodeEvent}
    (hn : pool.utf8 n = .ok name) (hd : pool.utf8 d = .ok descriptor) (hc : pool.utf8 c = .ok Attribute.codeName)
    (hb : Attribute.encodeAll [⟨c, code⟩] = .ok body)
    (h : Consumes (readCode pool) code (codeEvents.map .code) fun _ => True) :
    Consumes (readMethod pool) (Bytes.u2 access ++ Bytes.u2 n ++ Bytes.u2 d ++ body)
      (.method ⟨access, name, descriptor, []⟩ :: codeEvents.map .code) fun _ => True := by
  let header : MethodHeader := ⟨access, name, descriptor, []⟩
  have ha : Forall₂ (Attribute.ReadAs pool (readMethodPart pool header.name header.descriptor)) [⟨c, code⟩]
      ((if true then [IsCode pool codeEvents] else []) ++ exactly (methodParts header 0 [] none)) := by
    refine .cons ⟨Attribute.codeName, hc, (consumes_codePart _ _ _ _).mono ?_⟩ .nil
    rintro o ⟨rest, n, rfl⟩
    exact ⟨_, rfl, _, rest, n, rfl, h⟩
  have ho : Element.IsOutside [] := fun _ _ h => by cases h
  have hbody := consumes_methodBody ha ho (by simp) hb
  rw [append_assoc, append_assoc]
  exact .take_bind (decodes_u2 access) (.take_bind (decodes_index hn) (.take_bind (decodes_index hd) (hbody.inside _)))

namespace FieldTarget

/-- The constants of the class `A` with a method `m`. -/
def constants : Bytes :=
  [0, 8, 1, 0, 1, 65, 7, 0, 1, 1, 0, 5, 76, 97, 47, 77, 59, 1, 0, 29, 82, 117, 110, 116, 105, 109, 101, 86, 105, 115, 105,
    98, 108, 101, 84, 121, 112, 101, 65, 110, 110, 111, 116, 97, 116, 105, 111, 110, 115, 1, 0, 4, 67, 111, 100, 101, 1, 0,
    1, 109, 1, 0, 3, 40, 41, 86]

def view : PoolView :=
  match PoolView.decode { rest := constants } with
  | .ok (view, _) => view
  | .error _ => { entries := #[] }

/-- Code that returns, with an annotation on the type of a field. -/
def code : Bytes := [0, 0, 0, 0, 0, 0, 0, 1, 177, 0, 0, 0, 1, 0, 4, 0, 0, 0, 8, 0, 1, 19, 0, 0, 3, 0, 0]

def onField {L : Type} : TypeAnnotation L := ⟨19, .empty, [], ⟨"La/M;", []⟩⟩

def codeEvents : List CodeEvent := [.insn (.simple 177), .annotateType true onField, .maxs 0 0]

theorem consumes_code : Consumes (readCode view) code (codeEvents.map .code) fun _ => True := by
  let raw : RawCode := .ofParts 0 0 1 [(0, .simple 177)] [] [.types true [onField]]
  have hraw : Consumes (readRawCode view) code [] (· = raw) := fun rest n items => ⟨raw, [], rfl, rfl, rfl⟩
  exact hraw.readCode (by cbv)

def method : Bytes := Bytes.u2 8 ++ Bytes.u2 6 ++ Bytes.u2 7 ++ ([0, 1, 0, 5, 0, 0, 0, 27] ++ code)

theorem readEvents_method : readEvents (methodClass constants method) = .ok (.header ⟨⟨52, 0⟩, 33, "A", none, []⟩ ::
    ([.method ⟨8, "m", "()V", []⟩ :: codeEvents.map .code].flatten ++ [.done])) := by
  have hb : Attribute.encodeAll [⟨5, code⟩] = .ok ([0, 1, 0, 5, 0, 0, 0, 27] ++ code) := rfl
  have hconstants : Decodes PoolView.decode constants view := fun _ _ => rfl
  have hmethod : Consumes (readMethod view) method (.method ⟨8, "m", "()V", []⟩ :: codeEvents.map .code) fun _ => True :=
    consumes_codeMethod rfl rfl rfl hb consumes_code
  exact readEvents_methodClass hconstants rfl (decodes_skipMember hb) hmethod

end FieldTarget

/-- **Outside of code no annotation on a type has a target of code. In code the targets go with their kinds, and those of
code are the ones with a local variable, an exception or a label.** -/
theorem readEvents_targets (h : readEvents bytes = .ok events) :
    (∀ e ∈ events, ∀ a ∈ e.typeAnnotations,
      TargetType.isCode a.targetType = false ∧ a.target.fits a.targetType = true) ∧
    ∀ visible a, .code (.annotateType visible a) ∈ events →
      a.target.fits a.targetType = true ∧ TargetType.isCode a.targetType = a.target.form.isInCode := by
  obtain ⟨c, rfl, -⟩ := exists_classRead h
  exact ⟨fun e he => c.isExternal_of_mem he, fun visible a ha => ⟨c.fits ha, TypeTarget.isCode_iff (c.fits ha)⟩⟩

theorem readEvents_targets_field : ∃ events, readEvents (methodClass FieldTarget.constants FieldTarget.method) = .ok events ∧
    (∀ e ∈ events, ∀ a ∈ e.typeAnnotations,
      TargetType.isCode a.targetType = false ∧ a.target.fits a.targetType = true) ∧
    ∀ visible a, .code (.annotateType visible a) ∈ events →
      a.target.fits a.targetType = true ∧ TargetType.isCode a.targetType = a.target.form.isInCode :=
  ⟨_, FieldTarget.readEvents_method, readEvents_targets FieldTarget.readEvents_method⟩

/-- Code may have an annotation on the type of a field, which is no target of code. -/
theorem readEvents_fieldTarget : ∃ events visible a,
    readEvents (methodClass FieldTarget.constants FieldTarget.method) = .ok events ∧
      .code (.annotateType visible a) ∈ events ∧ TargetType.isCode a.targetType = false :=
  ⟨_, true, FieldTarget.onField, FieldTarget.readEvents_method, by simp [FieldTarget.codeEvents], by decide⟩

/-! ## Visibility -/

def AttributeRead.Annotates (name : Bool → String) (d : Bool → Decode (List β)) (visible : Bool) (a : AttributeRead α) :
    Prop :=
  a.entries (d visible) (name visible) ≠ []

/-- The annotations of an attribute, with their visibility. -/
def AttributeRead.annotations (name : Bool → String) (d : Bool → Decode (List β)) (a : AttributeRead α) : List (Bool × β) :=
  [true, false].flatMap fun visible => (a.entries (d visible) (name visible)).map fun b => (visible, b)

theorem AttributeRead.annotations_of_ok {name : Bool → String} (hn : Function.Injective name) {d : Bool → Decode (List β)}
    {a : AttributeRead α} {v : Bool} {l : List β} (ha : a.name = name v) (h : d v a.content = .ok (l, j)) :
    a.annotations name d = l.map fun b => (v, b) := by
  have hv : a.entries (d v) (name v) = l := ha ▸ entries_of_ok h
  have hne : ∀ w, w ≠ v → a.entries (d w) (name w) = [] := fun w hw => if_neg fun h => hw (hn (h.symm.trans ha))
  cases v with
  | true => simp [annotations, hv, hne false (by decide)]
  | false => simp [annotations, hv, hne true (by decide)]

theorem AttributeRead.annotations_of_ne {name : Bool → String} {d : Bool → Decode (List β)} {a : AttributeRead α}
    (h : ∀ v, a.name ≠ name v) : a.annotations name d = [] := by
  have he : ∀ v, a.entries (d v) (name v) = [] := fun v => if_neg (h v)
  simp [annotations, he]

theorem visibleFirst_annotations {name : Bool → String} {d : Bool → Decode (List β)} {as : List (AttributeRead α)} :
    VisibleFirst (as.flatMap (AttributeRead.annotations name d)) ↔
      as.Pairwise fun a b => ¬(a.Annotates name d false ∧ b.Annotates name d true) := by
  have hv : ∀ {v} {a : AttributeRead α}, a.Annotates name d v ↔ ∃ x ∈ a.annotations name d, x.1 = v := by
    intro v a
    rw [AttributeRead.Annotates, ne_eq, eq_nil_iff_forall_not_mem]
    cases v <;> simp [AttributeRead.annotations]
  have hin : ∀ a ∈ as, VisibleFirst (a.annotations name d) := by
    intro a _
    simp [VisibleFirst, AttributeRead.annotations, pairwise_append, pairwise_map, pairwise_of_forall]
  rw [VisibleFirst, pairwise_flatMap]
  refine (and_iff_right hin).trans (Pairwise.iff fun {a b} => ?_)
  rw [hv, hv]
  constructor
  · rintro hab ⟨⟨x, hx, hfalse⟩, y, hy, htrue⟩
    rw [hab x hx y hy htrue] at hfalse
    cases hfalse
  · intro hab x hx y hy hv
    by_contra hf
    exact hab ⟨⟨x, hx, by simpa using hf⟩, y, hy, hv⟩

/-! ## Annotations on parameters -/

/-- What an event says about annotations on parameters, with the visibility. -/
def ClassEvent.onParameter? (e : ClassEvent) : Option (Bool × ClassEvent) :=
  match e with
  | annotableParameterCount _ visible | annotateParameter _ visible _ => some (visible, e)
  | _ => none

/-- The attribute brings about events on the parameters of a method. -/
def AttributeRead.AnnotatesParameters (pool : PoolView) (descriptor : String) : Bool → AttributeRead Part → Prop :=
  Annotates Attribute.parameterAnnotationsName fun visible => decodeParameterAnnotations pool visible descriptor

theorem onParameter?_of_decode {visible : Bool} {descriptor : String} {l : List ClassEvent}
    (h : decodeParameterAnnotations pool visible descriptor i = .ok (l, j)) :
    ∀ e ∈ l, e.onParameter? = some (visible, e) := by
  have ho : Decode.Only (decodeParameterAnnotations pool visible descriptor) fun l =>
      ∀ e ∈ l, e.onParameter? = some (visible, e) := by
    refine .any_bind fun count => .any_bind fun arguments => .any_bind fun lists => .pure fun e he => ?_
    rcases mem_append.1 he with he | he
    · split at he
      · simp at he
      · rw [mem_singleton.1 he]
        rfl
    · obtain ⟨_, -, he⟩ := mem_flatMap.1 he
      obtain ⟨a, -, rfl⟩ := mem_map.1 he
      rfl
  exact ho i l j h

theorem ran_readMethodPart {method descriptor name : String} {length : Nat} {o : Option Part} {es : List ClassEvent}
    (h : Ran (readMethodPart pool method descriptor name length) i o j es) :
    (∃ v l, name = Attribute.parameterAnnotationsName v ∧
      decodeParameterAnnotations pool v descriptor i = .ok (l, j) ∧ o = some (.parameterAnnotations l)) ∨
    (∀ v, name ≠ Attribute.parameterAnnotationsName v) ∧ ∀ p ∈ o, ∀ l, p ≠ .parameterAnnotations l := by
  by_cases hn : ∃ v, name = Attribute.parameterAnnotationsName v
  · obtain ⟨v, rfl⟩ := hn
    have hr : readMethodPart pool method descriptor (Attribute.parameterAnnotationsName v) length
        = (take (decodeParameterAnnotations pool v descriptor) >>= fun l => pure (some (.parameterAnnotations l))) := by
      cases v <;> rfl
    have hg : Gives (readMethodPart pool method descriptor (Attribute.parameterAnnotationsName v) length) i fun o j _ =>
        ∃ l, decodeParameterAnnotations pool v descriptor i = .ok (l, j) ∧ o = some (.parameterAnnotations l) := by
      rw [hr]
      exact .take_bind fun l j hl => .pure ⟨l, hl, rfl⟩
    obtain ⟨l, hl, rfl⟩ := hg.of_ran h
    exact .inl ⟨v, l, rfl, hl, rfl⟩
  · have hn : ∀ v, name ≠ Attribute.parameterAnnotationsName v := not_exists.1 hn
    refine .inr ⟨hn, Yields.of_ran (P := fun o => ∀ p ∈ o, ∀ l, p ≠ .parameterAnnotations l) ?_ h⟩
    have hs : ∀ {α : Type} {d : Decode α} {f : α → Part}, (∀ a l, f a ≠ .parameterAnnotations l) →
        Yields (take d >>= fun a => pure (some (f a))) fun o => ∀ p ∈ o, ∀ l, p ≠ .parameterAnnotations l := by
      refine fun hf => .take_bind fun a => .pure ?_
      rintro _ ⟨⟩
      exact hf a
    have hc : ∀ input, Yields (take (Decode.skip length) >>= fun _ => pure (some (Part.code input)))
        fun o => ∀ p ∈ o, ∀ l, p ≠ .parameterAnnotations l := fun _ => hs (by simp)
    refine .ite (fun i => .get_bind fun items => hc i i) (.ite (hs (by simp)) (.ite (hs (by simp)) ?_))
    rw [if_neg (hn true), if_neg (hn false)]
    exact .ite (hs (by simp)) ((yields_readElementPart pool _ _ _).mono fun _ h p hp => (h p hp).2)

namespace MethodRead.At

variable {m : MethodRead pool}

theorem onParameter?_inner (h : m.At i j) : m.inner.filterMap ClassEvent.onParameter? = m.attributes.flatMap
    (AttributeRead.annotations Attribute.parameterAnnotationsName fun v =>
      decodeParameterAnnotations pool v m.descriptor) := by
  have hplain : ∀ {es : List ClassEvent}, (∀ e ∈ es, e.IsPlain) → es.filterMap ClassEvent.onParameter? = [] := by
    refine fun hes => filterMap_eq_nil_iff.2 fun e he => ?_
    have hl := (hes e he).1
    cases e <;> first | rfl | cases hl
  have hc := isPlain_common (h.member.sound fun _ _ => yields_readMethodPart pool _ _)
  simp only [forall_mem_append] at hc
  simp only [inner, head, methodEvents, tail_cons, filterMap_append, hplain hc.1.1, hplain hc.1.2, hplain hc.2,
    filterMap_map, Function.comp_def, ClassEvent.onParameter?, filterMap_none, nil_append, append_nil]
  refine (congrArg (filterMap ClassEvent.onParameter?) (flatMap_partsOf m.attributes _)).trans ?_
  obtain ⟨_, _, _, -, -, -, hat⟩ := h.member
  refine filterMap_flatMap.trans (flatMap_congr fun a ha => ?_)
  obtain ⟨_, _, _, _, -, -, -, hr⟩ := hat.exists_at a ha
  rcases ran_readMethodPart hr with ⟨v, l, hn, hd, hp⟩ | ⟨hn, hp⟩
  · rw [AttributeRead.annotations_of_ok (by decide) hn hd, hp, ← filterMap_eq_map, Option.toList_some, flatMap_singleton]
    exact filterMap_congr (onParameter?_of_decode hd)
  · rw [AttributeRead.annotations_of_ne hn]
    refine filterMap_eq_nil_iff.2 fun e he => ?_
    obtain ⟨p, hm, he⟩ := mem_flatMap.1 he
    split at he
    next l => exact absurd rfl (hp _ (Option.mem_toList.1 hm) l)
    next => cases he

end MethodRead.At

/-! ## Annotations on types in code -/

/-- The attribute brings about annotations on types in code. -/
def AttributeRead.AnnotatesTypes (pool : PoolView) (length : UInt16) : Bool → AttributeRead CodePart → Prop :=
  Annotates Attribute.typeAnnotationsName fun _ => decodeTypes pool (some length)

theorem CodeRead.typeAnnotations_raw {start : Input} (c : CodeRead pool start) : c.raw.typeAnnotations = c.attributes.flatMap
    (AttributeRead.annotations Attribute.typeAnnotationsName fun _ => decodeTypes pool (some c.length.toUInt16)) := by
  refine (flatMap_partsOf c.attributes _).trans (flatMap_congr fun a ha => ?_)
  obtain ⟨_, j, _, _, -, -, -, hr⟩ := c.readsTables.exists_at a ha
  obtain ⟨-, ⟨p, hp, hat⟩ | ⟨hp, hn⟩⟩ := (gives_readCodePart pool _ _ _ _).of_ran hr
  · rw [hp]
    cases p with
    | types v l =>
      rw [AttributeRead.annotations_of_ok (by decide) hat.1 hat.2]
      exact flatMap_singleton _ _
    | _ =>
      refine (AttributeRead.annotations_of_ne ?_).symm
      rw [hat.1]
      decide
  · have hnames : ∀ v, Attribute.typeAnnotationsName v ∈ CodePart.names := by decide
    rw [hp, AttributeRead.annotations_of_ne fun v hv => hn (hv ▸ hnames v)]
    rfl

theorem MethodRead.At.visibleFirst_types {m : MethodRead pool} (h : m.At i j) :
    VisibleFirst (m.codeEvents.filterMap Body.annotatedType?) ↔ ∀ c ∈ m.code, c.2.attributes.Pairwise fun a b =>
      ¬(a.AnnotatesTypes pool c.2.length.toUInt16 false ∧ b.AnnotatesTypes pool c.2.length.toUInt16 true) := by
  cases hc : m.code with
  | none =>
    rw [h.none hc]
    exact iff_of_true .nil (by simp)
  | some c =>
    have ht : m.codeEvents.filterMap Body.annotatedType? = c.2.raw.parts.types :=
      (RawCode.ofEvents_parts (h.events c hc)).1
    have hv : VisibleFirst c.2.raw.typeAnnotations ↔ _ := c.2.typeAnnotations_raw ▸ visibleFirst_annotations
    rw [ht, RawCode.parts, VisibleFirst, pairwise_map]
    exact hv.trans (by simp [AttributeRead.AnnotatesTypes])

namespace InvisibleFirst

/-- The constants of the class `A` with a method `m`. -/
def constants : Bytes :=
  [0, 8, 1, 0, 1, 65, 7, 0, 1, 1, 0, 5, 76, 97, 47, 77, 59, 1, 0, 36, 82, 117, 110, 116, 105, 109, 101, 73, 110, 118,
    105, 115, 105, 98, 108, 101, 80, 97, 114, 97, 109, 101, 116, 101, 114, 65, 110, 110, 111, 116, 97, 116, 105, 111,
    110, 115, 1, 0, 34, 82, 117, 110, 116, 105, 109, 101, 86, 105, 115, 105, 98, 108, 101, 80, 97, 114, 97, 109, 101,
    116, 101, 114, 65, 110, 110, 111, 116, 97, 116, 105, 111, 110, 115, 1, 0, 1, 109, 1, 0, 4, 40, 73, 41, 86]

/-- A method with an invisible annotation on its parameter, and then a visible one. -/
def method : Bytes :=
  [4, 8, 0, 6, 0, 7, 0, 2, 0, 4, 0, 0, 0, 7, 1, 0, 1, 0, 3, 0, 0, 0, 5, 0, 0, 0, 7, 1, 0, 1, 0, 3, 0, 0]

theorem exists_readEvents : ∃ events, readEvents (methodClass constants method) = .ok events ∧
    (events.filterMap ClassEvent.onParameter?).map Prod.fst = [false, true] := by
  decide +kernel

end InvisibleFirst

/-- **Annotations on parameters and on types in code come in the order of their attributes.** The visible ones come first
in a method exactly if none of its attributes with invisible ones comes before one with visible ones. -/
theorem readEvents_visibleFirst (h : readEvents bytes = .ok events) : ∃ c : ClassRead bytes,
    events = c.elements.flatten ∧ c.elements.Proper ∧ ∀ m ∈ c.methods,
      (VisibleFirst (m.inner.filterMap ClassEvent.onParameter?) ↔ m.attributes.Pairwise fun a b =>
        ¬(a.AnnotatesParameters c.view m.descriptor false ∧ b.AnnotatesParameters c.view m.descriptor true)) ∧
      (VisibleFirst (m.codeEvents.filterMap Body.annotatedType?) ↔ ∀ code ∈ m.code, code.2.attributes.Pairwise fun a b =>
        ¬(a.AnnotatesTypes c.view code.2.length.toUInt16 false ∧ b.AnnotatesTypes c.view code.2.length.toUInt16 true)) := by
  obtain ⟨c, rfl, -⟩ := exists_classRead h
  refine ⟨c, rfl, c.proper, fun m hm => ?_⟩
  obtain ⟨_, _, hat⟩ := c.methodsAt.exists_at m hm
  rw [hat.onParameter?_inner]
  exact ⟨visibleFirst_annotations, hat.visibleFirst_types⟩

theorem readEvents_visibleFirst_reversed : ∃ events,
    readEvents (methodClass InvisibleFirst.constants InvisibleFirst.method) = .ok events ∧
    ∃ c : ClassRead (methodClass InvisibleFirst.constants InvisibleFirst.method),
      events = c.elements.flatten ∧ c.elements.Proper ∧ ∀ m ∈ c.methods,
        (VisibleFirst (m.inner.filterMap ClassEvent.onParameter?) ↔ m.attributes.Pairwise fun a b =>
          ¬(a.AnnotatesParameters c.view m.descriptor false ∧ b.AnnotatesParameters c.view m.descriptor true)) := by
  obtain ⟨events, h, -⟩ := InvisibleFirst.exists_readEvents
  obtain ⟨c, hc, hp, hm⟩ := readEvents_visibleFirst h
  exact ⟨events, h, c, hc, hp, fun m hmem => (hm m hmem).1⟩

/-- The annotations on a parameter stay in the order of their attributes, the invisible one first. -/
theorem readEvents_invisibleFirst : ∃ events,
    readEvents (methodClass InvisibleFirst.constants InvisibleFirst.method) = .ok events ∧
      ¬VisibleFirst (events.filterMap ClassEvent.onParameter?) := by
  obtain ⟨events, h, he⟩ := InvisibleFirst.exists_readEvents
  refine ⟨events, h, fun hv => ?_⟩
  have hpair : ((events.filterMap ClassEvent.onParameter?).map Prod.fst).Pairwise fun a b => b = true → a = true :=
    pairwise_map.2 hv
  rw [he] at hpair
  simp at hpair

end ClassDoc
