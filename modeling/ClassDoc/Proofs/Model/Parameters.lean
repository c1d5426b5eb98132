/-
  The parameters of methods on their way through a model.

  A model has one list for what is said about parameters and for the annotations on them. It makes the list itself for
  annotations on parameters about which nothing is said.
-/
import ClassDoc.Proofs.Grammar
import ClassDoc.Proofs.Model.Replay
namespace ClassDoc

open List

open Model

/-! ## The methods of a class -/

/-- The events of each method. -/
def methodsIn : List ClassEvent → List (List ClassEvent)
  | [] => []
  | .method _ :: rest => rest.takeWhile ClassEvent.isInMethod :: methodsIn rest
  | _ :: rest => methodsIn rest

section Members

variable {members : List (Member × List ClassEvent)} {own : List ClassEvent} {s : Scope}

def Member.methodEvents? (m : Member × List ClassEvent) : Option (List ClassEvent) :=
  match m.1 with
  | .field _ => none
  | .method _ => some m.2

theorem methodsIn_append (h : ∀ e ∈ own, s.has e = true) (rest : List ClassEvent) :
    methodsIn (own ++ rest) = methodsIn rest := by
  induction own with
  | nil => rfl
  | cons e own ih =>
    rw [forall_mem_cons] at h
    cases e with
    | method => cases s <;> cases h.1
    | _ => exact ih h.2

theorem methodsIn_members (h : ∀ m ∈ members, m.1.Holds m.2) :
    methodsIn (members.flatMap (fun m => m.1.event :: m.2) ++ [.done]) = members.filterMap Member.methodEvents? := by
  induction members with
  | nil => rfl
  | cons m members ih =>
    rw [forall_mem_cons] at h
    rw [flatMap_cons, append_assoc, cons_append]
    -- What comes next starts another member or ends the class.
    have hnext : (members.flatMap (fun m => m.1.event :: m.2)
        ++ [ClassEvent.done]).takeWhile ClassEvent.isInMethod = [] := by
      cases members with
      | nil => rfl
      | cons m members => cases hm : m.1 <;> simp [hm, Member.event, ClassEvent.isInMethod, ClassEvent.level]
    generalize members.flatMap (fun m => m.1.event :: m.2) ++ [ClassEvent.done] = rest at ih hnext ⊢
    have hrest := (methodsIn_append (Member.holds_iff.1 h.1) rest).trans (ih h.2)
    obtain ⟨member, events⟩ := m
    cases member with
    | field header => exact hrest
    | method header =>
      have htake : (events ++ rest).takeWhile ClassEvent.isInMethod = events := by
        rw [takeWhile_append_of_pos h.1, hnext, append_nil]
      exact congrArg₂ cons htake hrest

theorem methodsIn_grammatical {header : ClassHeader} (ho : ∀ e ∈ own, e.isInClass = true)
    (h : ∀ m ∈ members, m.1.Holds m.2) :
    methodsIn (.header header :: (own ++ members.flatMap (fun m => m.1.event :: m.2) ++ [.done])) =
      members.filterMap Member.methodEvents? := by
  rw [append_assoc]
  exact (methodsIn_append (s := .ofClass) ho _).trans (methodsIn_members h)

theorem Elements.Proper.methodsIn_flatten {s : Elements} (h : s.Proper) : methodsIn s.flatten = s.methods.map Prod.snd := by
  rw [s.flatten_eq, methodsIn_grammatical h.events (holds_members h), members, filterMap_append, filterMap_map,
    filterMap_map]
  simp [Function.comp_def, Member.methodEvents?]

end Members

namespace ModelBuilder

variable {c : ClassModel} {m m' : Method} {n n' : Label.Numbering} {e : ClassEvent} {b t : ModelBuilder}
  {events : List ClassEvent} {members : List (Member × List ClassEvent)} {header : MethodHeader}

/-! ## What is built -/

theorem field_methods (he : ∀ e ∈ events, e.level = .element) (hb : At (.within .ofField) b)
    (h : events.forM accept b = .ok () t) : At (.within .ofField) t ∧ t.model.methods = b.model.methods := by
  induction events generalizing b with
  | nil =>
    cases h
    exact ⟨hb, rfl⟩
  | cons e events ih =>
    rw [forall_mem_cons] at he
    obtain ⟨r, h1, h2⟩ := run_forM_cons.1 h
    rw [accept_within hb] at h1
    have hr : At (.within .ofField) r ∧ r.model.methods = b.model.methods := by
      cases e with
      | signature | deprecated | synthetic | annotate =>
        cases h1
        exact ⟨hb, rfl⟩
      | annotateType visible a =>
        obtain ⟨type, q, hq, h1⟩ := run_bind_eq_ok.1 h1
        obtain ⟨-, rfl⟩ := typeAnnotated_eq_ok.1 hq
        cases h1
        exact ⟨hb, rfl⟩
      | _ => cases he.1
    obtain ⟨ht, hm⟩ := ih he.2 hr.1 h2
    exact ⟨ht, hm.trans hr.2⟩

def BuildsFrom (events : List ClassEvent) (m : Method) : Prop :=
  (∀ e ∈ events, e.isInMethod = true) ∧ ∃ header, BuildsMethod (header, events) m

theorem members_run (h : ∀ m ∈ members, m.1.Holds m.2) (ho : Open b c)
    (hr : (members.flatMap fun m => m.1.event :: m.2).forM accept b = .ok () t) :
    ∃ d ms, Open t d ∧ d.methods = c.methods ++ ms ∧ Forall₂ BuildsFrom (members.filterMap Member.methodEvents?) ms := by
  induction members generalizing b c with
  | nil =>
    cases hr
    exact ⟨c, [], ho, by simp, .nil⟩
  | cons x members ih =>
    rw [forall_mem_cons] at h
    obtain ⟨r, h1, h2⟩ := run_forM_append.1 hr
    obtain ⟨q, hq, h1⟩ := run_forM_cons.1 h1
    obtain ⟨member, events⟩ := x
    cases member with
    | field header =>
      obtain rfl := (EStateM.Result.ok.inj ((ho.accept_eq.1 header).symm.trans hq)).2
      obtain ⟨hr, hm⟩ := field_methods h.1 (show At (.within .ofField) (inField _ _ _) from rfl) h1
      obtain ⟨d, ms, hd, hms, hall⟩ := ih h.2 hr.open h2
      refine ⟨d, ms, hd, ?_, hall⟩
      rw [hms, ← ho.2.2]
      simp [orderClass, hm, inField]
    | method header =>
      obtain rfl := (EStateM.Result.ok.inj ((ho.accept_eq.2.1 header).symm.trans hq)).2
      obtain ⟨m', n', rfl, hm, -, -⟩ := method_run h.1 h1
      obtain ⟨d, ms, hd, hms, hall⟩ := ih h.2 (open_inMethod ho m' n') h2
      exact ⟨d, orderMethod m' :: ms, hd, by simpa using hms, .cons ⟨h.1, header, m', n', hm, rfl⟩ hall⟩

/-- **Each method of a model is built from its events.** -/
theorem builds_methodsIn (h : buildModel events = .ok c) :
    Forall₂ BuildsFrom (methodsIn events) c.methods := by
  obtain ⟨header, own, members, rfl, ho, hm⟩ := (sound_of_buildModel h).1
  rw [methodsIn_grammatical ho hm]
  rw [buildModel] at h
  split at h
  next b hb =>
    obtain ⟨b₁, h1, hb⟩ := run_forM_cons.1 hb
    obtain ⟨b₂, hb, h2⟩ := run_forM_append.1 hb
    obtain ⟨b₃, h3, hb⟩ := run_forM_append.1 hb
    obtain ⟨q, hq, hs₁⟩ := exists_next sound_start h1
    cases hq
    obtain ⟨q, hq, hs₃⟩ := Phase.run_of_next Sound exists_next hs₁ h3
    cases hq.symm.trans (Phase.run_of_has (s := .ofClass) ho)
    obtain ⟨d, ms, hd, hms, hall⟩ := members_run hm hs₃.1.open hb
    obtain ⟨b₄, h4, h2⟩ := run_forM_cons.1 h2
    rw [hd.accept_eq.2.2] at h4
    cases h4
    cases h2
    obtain rfl : orderClass b₂.model = c := Except.ok.inj h
    rwa [hd.2.2, hms, orderClass, hs₃.1.2.2]
  next => cases h

/-! ## Parameters -/

/-- **What an event does to the parameters of a method.** It leaves them, adds one, or annotates one, which makes them if
there are none yet. -/
theorem parameters_step (he : e.isInMethod = true) (h : accept e (inMethod c m n) = .ok () (inMethod c m' n')) :
    Element.parameters [e] = [] ∧ parametersOf m' = parametersOf m ∨
      (∃ name access, e = .parameter name access ∧ parametersOf m' = parametersOf m
        ++ [{ name := name, access := access }]) ∨
      ∃ (i : Nat) (annotations : Parameter → List Model.Annotation) (ps : List Parameter),
        Element.parameters [e] = [] ∧ i < 256 ∧ i < ps.length ∧
        (ps = parametersOf m ∨ parametersOf m = [] ∧ ∃ count, argumentCount m = .ok count ∧ ps = replicate count {}) ∧
        parametersOf m' = ps.modify i fun p => { p with annotations := annotations p } := by
  by_cases hp : e.isParameter = true
  · rw [accept_inMethod] at h
    cases e with
    | parameter name access =>
      have hm : inMethod c { m with parameters := { name, access } :: m.parameters } n = inMethod c m' n' := by
        cases h
        rfl
      obtain ⟨rfl, -⟩ := inMethod_inj hm
      exact .inr (.inl ⟨name, access, rfl, by simp [parametersOf, orderMethod, orderParameter]⟩)
    | annotateParameter index visible a =>
      obtain ⟨i, qs, -, hq, hi, hm⟩ := annotateParameter_eq_ok.1 h
      obtain ⟨rfl, -⟩ := inMethod_inj hm
      refine .inr (.inr ⟨i.toNat, _, qs.reverse.map orderParameter, rfl, i.toNat_lt, by simpa using hi, ?_,
        parametersOf_annotated a hi⟩)
      rw [madeParameters] at hq
      split at hq
      next hnil =>
        cases hc : argumentCount m with
        | error f =>
          rw [hc] at hq
          cases hq
        | ok count =>
          rw [hc] at hq
          cases hq
          refine .inr ⟨by simpa [parametersOf, orderMethod] using hnil, count, rfl, ?_⟩
          rw [reverse_replicate, map_replicate]
          rfl
      next =>
        cases hq
        exact .inl rfl
    | _ => cases hp
  · obtain ⟨m₁, n₁, hm, -, -, hkept⟩ := method_step he h
    obtain ⟨rfl, rfl⟩ := inMethod_inj hm
    refine .inl ⟨?_, parametersOf_congr (hkept (by simpa using hp))⟩
    cases e with
    | parameter => cases hp rfl
    | _ => rfl

def saidIn (ps : List Parameter) : List (Option String × UInt16) := ps.map fun p => (p.name, p.access)

theorem saidIn_modify (annotations : Parameter → List Model.Annotation) (ps : List Parameter) (i : Nat) :
    saidIn (ps.modify i fun p => { p with annotations := annotations p }) = saidIn ps := by
  refine ext_getElem? fun j => ?_
  simp only [saidIn, getElem?_map, getElem?_modify]
  cases ps[j]? with
  | none => rfl
  | some p => by_cases hj : i = j <;> simp [hj]

/-- **The parameters of a method are those that events tell**, after those that were made for annotations before them. -/
theorem parameters_run (he : ∀ e ∈ events, e.isInMethod = true)
    (h : events.forM accept (inMethod c (methodOf header) {}) = .ok () (inMethod c m n)) :
    (orderMethod m).AnnotatesLow ∧ (saidIn (parametersOf m) = Element.parameters events ∨
      ∃ count, argumentCount m = .ok count ∧ 0 < count ∧
        saidIn (parametersOf m) = replicate count (none, 0) ++ Element.parameters events) := by
  induction events using List.reverseRecOn generalizing m n with
  | nil =>
    obtain ⟨rfl, -⟩ := inMethod_inj (EStateM.Result.ok.inj h).2
    exact ⟨fun _ _ hq => by simp [orderMethod, methodOf] at hq, .inl rfl⟩
  | append_singleton events e ih =>
    rw [forall_mem_append] at he
    obtain ⟨b, h1, h2⟩ := run_forM_append.1 h
    obtain ⟨m₁, n₁, rfl, -, -, -⟩ := method_run he.1 h1
    obtain ⟨_, h2, h3⟩ := run_forM_cons.1 h2
    cases h3
    have hcount : argumentCount m = argumentCount m₁ := by
      have hd : (soFar m).descriptor = (soFar m₁).descriptor := by
        rw [soFar_run (forall_mem_append.2 he) h, soFar_run he.1 h1]
        rfl
      exact congrArg (fun d => do return (← ofDescriptor (Descriptor.splitMethod d)).1.length) hd
    have hadd : Element.parameters (events ++ [e]) = Element.parameters events ++ Element.parameters [e] :=
        filterMap_append ..
    obtain ⟨hlow, hsaid⟩ := ih he.1 h1
    have hlow : ∀ index q, (parametersOf m₁)[index]? = some q → q.annotations ≠ [] → index < 256 := hlow
    change (∀ index q, (parametersOf m)[index]? = some q → q.annotations ≠ [] → index < 256) ∧ _
    rw [hcount, hadd]
    rcases parameters_step (he.2 e (by simp)) h2 with ⟨hnone, hp⟩ | ⟨name, access, rfl, hp⟩ |
      ⟨i, annotations, ps, hnone, h256, hi, hps, hp⟩
    · rw [hp, hnone, append_nil]
      exact ⟨hlow, hsaid⟩
    · rw [hp]
      constructor
      · intro index q hq ha
        rw [getElem?_append] at hq
        split at hq
        · exact hlow index q hq ha
        · rw [mem_singleton.1 (mem_of_getElem? hq)] at ha
          exact absurd rfl ha
      · have hs : ∀ xs, saidIn (xs ++ [{ name := name, access := access }]) = saidIn xs ++ [(name, access)] :=
          by simp [saidIn]
        rw [hs]
        rcases hsaid with hsaid | ⟨count, hc, h0, hsaid⟩
        · exact .inl (by rw [hsaid]; rfl)
        · exact .inr ⟨count, hc, h0, by rw [hsaid, append_assoc]; rfl⟩
    · have hlow' : ∀ index q, ps[index]? = some q → q.annotations ≠ [] → index < 256 := by
        rcases hps with rfl | ⟨-, count, -, rfl⟩
        · exact hlow
        · intro index q hq ha
          rw [eq_of_mem_replicate (mem_of_getElem? hq)] at ha
          exact absurd rfl ha
      rw [hp, hnone, append_nil, saidIn_modify]
      constructor
      · intro index q hq ha
        rw [getElem?_modify] at hq
        obtain ⟨r, hr, rfl⟩ := Option.map_eq_some_iff.1 hq
        by_cases hj : i = index
        · exact hj ▸ h256
        · rw [if_neg hj] at ha
          exact hlow' index r hr ha
      · rcases hps with rfl | ⟨hnil, count, hc, rfl⟩
        · exact hsaid
        · have hnone : Element.parameters events = [] := by
            rw [hnil] at hsaid
            rcases hsaid with hsaid | ⟨count, -, h0, hsaid⟩
            · exact hsaid.symm
            · exact (append_eq_nil_iff.1 hsaid.symm).2
          refine .inr ⟨count, hc, by simpa using Nat.zero_lt_of_lt hi, ?_⟩
          rw [hnone, append_nil, saidIn, map_replicate]

theorem any_saidIn (ps : List Parameter) :
    (saidIn ps).any (fun p => p.1.isSome || p.2 != 0) = ps.any fun p => p.name.isSome || p.access != 0 := by
  rw [saidIn, any_map]
  rfl

/-- **What a valid method tells of its parameters is what its events tell**, unless this is nothing. -/
theorem BuildsFrom.parameters_eq {arguments : List String} {result : String} (h : BuildsFrom events m)
    (hv : m.Valid arguments result) : m.AnnotatesLow ∧ (if m.namesParameters then saidIn m.parameters else []) =
      if (Element.parameters events).any fun p => p.1.isSome || p.2 != 0 then Element.parameters events else [] := by
  obtain ⟨he, header, m', n, hr, rfl⟩ := h
  obtain ⟨hlow, hsaid⟩ := parameters_run he (hr default)
  have hordered : parametersOf m' = (orderMethod m').parameters := rfl
  rw [hordered] at hsaid
  refine ⟨hlow, ?_⟩
  rw [Method.namesParameters, ← any_saidIn]
  rcases hsaid with hsaid | ⟨count, hc, h0, hsaid⟩
  · rw [hsaid]
  · -- As many parameters as there are arguments were made for annotations, so there is no room for others.
    have hcount : arguments.length = count := Except.ok.inj ((Method.argumentCount_eq hv).symm.trans hc)
    have hlen : (orderMethod m').parameters.length = count + (Element.parameters events).length := by
      have := congrArg length hsaid
      rwa [saidIn, length_map, length_append, length_replicate] at this
    have hnone : Element.parameters events = [] := by
      have hp := hv.parameters
      simp only [Bool.or_eq_true, List.isEmpty_iff, ← length_eq_zero_iff, beq_iff_eq] at hp
      rw [← length_eq_zero_iff]
      omega
    rw [hsaid, hnone, append_nil]
    simp

end ModelBuilder

/-! ## All together -/

open ModelBuilder in
/-- **What events tell of the parameters of a method passes through a model**, unless it is nothing but how many there are. -/
theorem parameters_events {es : List ClassEvent} {c : ClassModel} (h : buildModel es = .ok c) (hv : c.validate = .ok ()) :
    ∃ emitted, c.events = .ok emitted ∧ Forall₂ (fun x y => Element.parameters y =
      if (Element.parameters x).any fun p => p.1.isSome || p.2 != 0 then Element.parameters x else [])
        (methodsIn es) (methodsIn emitted) := by
  have hvc := ClassModel.validate_iff.1 hv
  obtain ⟨p, hp⟩ := ClassModel.exists_encodes_of_distinct hvc (sound_of_buildModel h).2
  have hbuilds := builds_methodsIn h
  have hlow : ∀ m ∈ c.methods, ∀ v, m.Reaches (ClassModel.argumentsOf m) v := by
    intro m hm
    obtain ⟨x, -, hx⟩ := exists_of_mem_right hbuilds hm
    obtain ⟨arguments, result, hvm⟩ := hvc.methods m hm
    exact (hx.parameters_eq hvm).1.reaches _
  refine ⟨c.eventsOf p, ClassModel.events_eq (ClassModel.emits hp hvc hlow), ?_⟩
  rw [← ClassModel.flatten_elementsOf, (ClassModel.proper_elementsOf hp hvc).methodsIn_flatten,
    ClassModel.elementsOf, map_map,
    forall₂_map_right_iff]
  refine (forall₂_trans hbuilds (forall₂_zip hp.methods)).imp ?_
  rintro x ⟨m, q⟩ ⟨_, hx, hm, -, rfl⟩
  obtain ⟨arguments, result, hvm⟩ := hvc.methods m hm
  rw [← (hx.parameters_eq hvm).2]
  exact congrArg MethodForm.parameters (Method.ofEvents_form m q _)

namespace ParameterNames

/-- A method with two parameters, of which the first may have a name and the second is annotated. -/
def events (named : Bool) : List ClassEvent :=
  [.header ⟨⟨52, 0⟩, 0x421, "A", none, []⟩, .method ⟨0x401, "m", "(II)V", []⟩,
    .parameter (if named then some "x" else none) 0, .parameter none 0, .annotateParameter 1 true ⟨"LM;", []⟩, .done]

def model (named : Bool) : ClassModel where
  name := "A"
  access := 0x421
  version := ⟨52, 0⟩
  methods := [{
    name := "m"
    descriptor := "(II)V"
    access := 0x401
    parameters := [{ name := if named then some "x" else none }, { annotations := [⟨"LM;", .runtime, []⟩] }] }]

variable (named : Bool)

theorem buildModel_named : buildModel (events named) = .ok (model named) := rfl

theorem valid_model : (model named).Valid := by
  cases named <;> decide +kernel

end ParameterNames

open ParameterNames

/-- The parameter without a name is told because the other has one. -/
theorem parameters_events_named : buildModel (events true) = .ok (model true) ∧ (model true).validate = .ok () ∧
    ∃ emitted, (model true).events = .ok emitted ∧
      (methodsIn emitted).map Element.parameters = [[(some "x", 0), (none, 0)]] := by
  have hv := ClassModel.validate_iff.2 (valid_model true)
  obtain ⟨emitted, he, hall⟩ := parameters_events (buildModel_named true) hv
  refine ⟨buildModel_named true, hv, emitted, he, ?_⟩
  obtain ⟨x, hx⟩ : ∃ x, methodsIn (events true) = [x] ∧ Element.parameters x = [(some "x", 0), (none, 0)] := ⟨_, rfl, rfl⟩
  rw [hx.1] at hall
  generalize methodsIn emitted = methods at hall ⊢
  cases hall with
  | cons hy hnil =>
    cases hnil
    rw [map_singleton, hy, hx.2]
    rfl

/-- Parameters that have neither names nor flags are lost. -/
theorem parameters_events_lost : ∃ emitted, buildModel (events false) = .ok (model false) ∧
    (model false).validate = .ok () ∧ (model false).events = .ok emitted ∧
    (methodsIn (events false)).map Element.parameters = [[(none, 0), (none, 0)]] ∧
    (methodsIn emitted).map Element.parameters = [[]] :=
  ⟨_, buildModel_named false, ClassModel.validate_iff.2 (valid_model false), rfl, rfl, rfl⟩

end ClassDoc
