/-
  The numbers of annotated parameters.

  In events an annotated parameter is told by a number of 8 bits, which counts the annotable ones. What is built from them
  counts all parameters, again with 8 bits.
-/
import ClassDoc.Proofs.Model.Replay
namespace ClassDoc

open List

/-! ## Events -/

def Ends {α : Type} (x : Model.EventM α) (a : α) : Prop := ∃ s t, x s = .ok a t

namespace Ends

variable {α β : Type} {x : Model.EventM α} {f : α → Model.EventM β} {a : α} {b : β}

theorem bind_iff : Ends (x >>= f) b → ∃ a, Ends x a ∧ Ends (f a) b := by
  rintro ⟨s, t, h⟩
  obtain ⟨a, r, hx, hf⟩ := run_bind_eq_ok.1 h
  exact ⟨a, ⟨s, r, hx⟩, r, t, hf⟩

theorem lift {y : Except Fault α} (h : Ends (liftM y) a) : y = .ok a := by
  obtain ⟨s, t, h⟩ := h
  exact (run_lift_eq_ok.1 h).1

theorem forM {f : α → Model.EventM Unit} {xs : List α} (h : Ends (xs.forM f) ()) : ∀ x ∈ xs, Ends (f x) () := by
  induction xs with
  | nil => simp
  | cons x xs ih =>
    obtain ⟨s, t, h⟩ := h
    obtain ⟨r, hx, h⟩ := run_forM_cons.1 h
    exact forall_mem_cons.2 ⟨⟨s, r, hx⟩, ih ⟨r, t, h⟩⟩

theorem inside {p : Place} (h : Ends (tracedInside p x) a) : Ends x a := by
  obtain ⟨⟨s, items⟩, t, h⟩ := h
  rw [tracedInside] at h
  split at h
  next a' s' inner hx =>
    cases h
    exact ⟨_, _, hx⟩
  next => cases h

theorem when {c : Prop} [Decidable c] {x : Model.EventM Unit} {k : Unit → Model.EventM β}
    (h : Ends (if c then x >>= k else k ()) b) : Ends (k ()) b := by
  split at h
  · obtain ⟨_, -, h⟩ := h.bind_iff
    exact h
  · exact h

end Ends

namespace Model.Method

variable {m : Method} {n : Nat} {v : Visibility}

theorem skipped_of_ends {k : Nat} (h : Ends (m.emitAnnotable n v) k) : k = m.skipped n v := by
  obtain ⟨s, t, h⟩ := h
  rw [emitAnnotable] at h
  rw [skipped]
  cases hm : m.annotable v with
  | none =>
    rw [hm] at h
    cases h
    rfl
  | some count =>
    rw [hm] at h
    obtain ⟨_, r, -, h⟩ := run_bind_eq_ok.1 h
    dsimp only at h ⊢
    split at h
    · cases h
    · cases h
      rfl

theorem reaches_of_ends (h : Ends (m.emitParameterAnnotations n v) ()) : m.Reaches n v := by
  obtain ⟨k, hk, h⟩ := h.bind_iff
  obtain rfl := skipped_of_ends hk
  rintro index q hq ⟨a, ha, hav⟩
  have hmem : (q, index) ∈ m.parameters.zipIdx := by simpa [mem_zipIdx_iff_getElem?] using hq
  obtain ⟨i, hi, -⟩ := ((h.forM _ hmem).forM a (mem_filter.2 ⟨ha, by simpa using hav⟩)).bind_iff
  have hi := hi.lift
  rw [annotableIndex] at hi
  split at hi
  · cases hi
  · split at hi
    next hlt => exact hlt
    next => cases hi

theorem reaches_of_emitEvents {arguments : List String} {result : String} (hv : m.Valid arguments result)
    (h : Ends m.emitEvents ()) (v : Visibility) : m.Reaches arguments.length v := by
  obtain ⟨_, -, h⟩ := h.bind_iff
  obtain ⟨_, -, h⟩ := h.bind_iff
  obtain ⟨_, -, h⟩ := h.bind_iff
  obtain ⟨_, -, h⟩ := h.when.bind_iff
  obtain ⟨_, -, h⟩ := h.bind_iff
  obtain ⟨n, hn, h⟩ := h.bind_iff
  obtain ⟨_, hr, h⟩ := h.bind_iff
  obtain ⟨_, hc, -⟩ := h.bind_iff
  have hn := hn.lift
  rw [argumentCount_eq hv] at hn
  cases hn
  cases v with
  | runtime => exact reaches_of_ends hr
  | classFile => exact reaches_of_ends hc

end Model.Method

theorem ClassModel.reaches_of_events {c : ClassModel} {es : List ClassEvent} (hv : c.Valid) (h : c.events = .ok es) :
    ∀ m ∈ c.methods, ∀ v, m.Reaches (argumentsOf m) v := by
  have hends : Ends c.emitEvents () := by
    obtain ⟨_, ho, -⟩ := bind_eq_ok.1 h
    rw [trace, traceOf] at ho
    split at ho
    next s items hx => exact ⟨_, _, hx⟩
    next => cases ho
  obtain ⟨_, -, hends⟩ := hends.bind_iff
  obtain ⟨_, -, hends⟩ := hends.bind_iff
  obtain ⟨_, hmethods, -⟩ := hends.bind_iff
  intro m hm v
  obtain ⟨arguments, result, hvm⟩ := hv.methods m hm
  rw [argumentsOf_eq hvm]
  exact Model.Method.reaches_of_emitEvents hvm (hmethods.forM m hm).inside v

/-! ## What is built -/

namespace Model.Method

open ModelBuilder

variable {m : Method} {p : MethodParts} {arguments : List String} {result : String} {v : Visibility} {q : Parameter}
  {index : Nat} {a : Annotation}

theorem exists_mem_annotationsFor (h : m.Encodes p) (hq : m.parameters[index]? = some q)
    (ha : a ∈ q.annotations) : ∃ b, (index, b) ∈ annotationsFor p a.visibility := by
  obtain ⟨as, has, hqa⟩ := forall₂_getElem? h.parameters hq
  obtain ⟨b, hb, hab⟩ := exists_of_mem_right hqa.flip ha
  refine ⟨b.2, mem_flatMap.2 ⟨(as, index), by simpa [mem_zipIdx_iff_getElem?] using has, ?_⟩⟩
  refine mem_map.2 ⟨b, mem_filter.2 ⟨hb, ?_⟩, rfl⟩
  rw [← hab.beq_visibility, beq_self_eq_true]

theorem annotableParameters_append {visible : Bool} {es es' : List ClassEvent}
    (h : Element.annotableParameters visible es = none) :
    Element.annotableParameters visible (es ++ es') = Element.annotableParameters visible es' := by
  simp only [Element.annotableParameters, filterMap_append] at h ⊢
  rw [getLast?_eq_none_iff.1 h, nil_append]

theorem exists_append_parameterEvents (h : m.Encodes p) (n : Nat)
    (hq : m.parameters[index]? = some q) (ha : a ∈ q.annotations) :
    ∃ before b after, m.parameterEvents p n a.visibility =
      before ++ .annotateParameter (UInt8.ofNat (index - m.skipped n a.visibility)) a.visibility.isRuntime b :: after ∧
      Element.annotableParameters a.visibility.isRuntime before = m.annotable a.visibility := by
  obtain ⟨b, hb⟩ := exists_mem_annotationsFor h hq ha
  obtain ⟨before, after, hba⟩ := append_of_mem hb
  rw [parameterEvents_eq, hba, map_append, map_cons, ← append_assoc]
  refine ⟨_, b, _, rfl, ?_⟩
  cases hm : m.annotable a.visibility <;> simp [Element.annotableParameters, filterMap_map]

theorem exists_append_innerEvents (h : m.Encodes p) (n : Nat) (hq : m.parameters[index]? = some q)
    (ha : a ∈ q.annotations) : ∃ before b after, m.innerEvents p n =
      before ++ .annotateParameter (UInt8.ofNat (index - m.skipped n a.visibility)) a.visibility.isRuntime b :: after ∧
      Element.annotableParameters a.visibility.isRuntime before = m.annotable a.visibility := by
  obtain ⟨before, b, after, he, hc⟩ := exists_append_parameterEvents h n hq ha
  have hl := annotableParameters_leadOf (m := m) (p := p) a.visibility.isRuntime
  rw [innerEvents, headOf]
  cases hv : a.visibility with
  | runtime =>
    rw [hv] at he hc hl
    refine ⟨m.leadOf p ++ before, b, after ++ m.parameterEvents p n .classFile ++ p.default.toList.map .annotationDefault ++
      (m.codeOf p).map .code, by simp [he], ?_⟩
    rw [annotableParameters_append hl, hc]
  | classFile =>
    rw [hv] at he hc hl
    have hr : Element.annotableParameters Visibility.classFile.isRuntime (m.parameterEvents p n .runtime) = none := by
      rw [parameterEvents_eq]
      simp [Element.annotableParameters, filterMap_map, Visibility.isRuntime]
    refine ⟨m.leadOf p ++ (m.parameterEvents p n .runtime ++ before), b, after ++ p.default.toList.map .annotationDefault ++
      (m.codeOf p).map .code, by simp [he], ?_⟩
    rw [annotableParameters_append hl, annotableParameters_append hr, hc]

theorem lt_of_annotatedIndex (hv : m.Valid arguments result) (hr : m.Reaches arguments.length v) {m₁ : Method}
    (hd : m₁.descriptor = m.descriptor) (hm : m₁.annotable v = m.annotable v)
    (hq : m.parameters[index]? = some q) (ha : ∃ a ∈ q.annotations, a.visibility = v) {i : UInt8}
    (hi : annotatedIndex m₁ (UInt8.ofNat (index - m.skipped arguments.length v)) v.isRuntime = .ok i) : index < 256 := by
  have hlt := hr index q hq ha
  have hle := skipped_le (hv.annotable v) hq ha
  have hm : (if v.isRuntime then m₁.visibleAnnotable else m₁.invisibleAnnotable) = m.annotable v := by
    rw [← hm]
    cases v <;> rfl
  have hc : argumentCount m₁ = .ok arguments.length := by
    rw [argumentCount, hd, hv.descriptor]
    rfl
  rw [annotatedIndex, hm, hc] at hi
  rw [skipped] at hi hlt hle
  cases hma : m.annotable v with
  | none =>
    simp only [hma] at hlt
    omega
  | some count =>
    simp only [hma, ok_bind, UInt8.toNat_ofNat'] at hi hlt hle
    split at hi
    · cases hi
    · split at hi
      next hsum => omega
      next => cases hi

theorem annotatesLow_of_builds (h : m.Encodes p) (hv : m.Valid arguments result) (hr : ∀ v, m.Reaches arguments.length v)
    {m' : Method} (hb : BuildsMethod (m.headerOf, m.innerEvents p arguments.length) m') : m.AnnotatesLow := by
  intro index q hq hne
  obtain ⟨a, ha⟩ := exists_mem_of_ne_nil _ hne
  obtain ⟨before, b, after, he, hc⟩ := exists_append_innerEvents h arguments.length hq ha
  obtain ⟨m₀, n₀, hrun, -⟩ := hb
  have hrun := hrun default
  dsimp only at hrun
  have hin := isInMethod_innerEvents (m := m) (p := p) arguments.length
  rw [he] at hrun hin
  have hin : ∀ e ∈ before, e.isInMethod = true := fun e he => hin e (mem_append_left _ he)
  obtain ⟨s, h1, h2⟩ := run_forM_append.1 hrun
  obtain ⟨m₁, n₁, rfl, -⟩ := method_run hin h1
  obtain ⟨_, h2, -⟩ := run_forM_cons.1 h2
  obtain ⟨i, ps, hi, -⟩ := annotateParameter_eq_ok.1 h2
  have hf := soFar_run hin h1
  have hd : (soFar m₁).descriptor = m.descriptor := by
    rw [hf]
    rfl
  have hm : (soFar m₁).annotable a.visibility = m.annotable a.visibility := by
    rw [hf, ← hc]
    cases a.visibility <;> rfl
  exact lt_of_annotatedIndex hv (hr a.visibility) hd hm hq ⟨a, ha, rfl⟩ hi

end Model.Method

/-- **From the events of a class something is built if and only if the numbers of its annotated parameters have 8 bits.** -/
theorem ClassModel.exists_builds_iff {c : ClassModel} {p : ClassParts} (h : c.Encodes p) (hv : c.Valid)
    (hr : ∀ m ∈ c.methods, ∀ v, m.Reaches (argumentsOf m) v) :
    (∃ c', ModelBuilder.Builds (c.elementsOf p) c') ↔ ∀ m ∈ c.methods, m.AnnotatesLow := by
  constructor
  · rintro ⟨c', hb⟩ m hm
    obtain ⟨⟨_, q⟩, hx, hmem, hq, rfl⟩ := exists_of_mem_right (forall₂_zip h.methods).flip hm
    obtain ⟨m', -, hb⟩ := exists_of_mem_right hb.methods.flip (mem_map_of_mem hx)
    obtain ⟨arguments, result, hvm⟩ := hv.methods _ hm
    have hreach := hr _ hm
    dsimp only at hb hreach
    rw [argumentsOf_eq hvm] at hb hreach
    exact Model.Method.annotatesLow_of_builds hq hvm hreach hb
  · exact fun ha => ⟨c.normal, builds_of_annotatesLow h hv ha⟩

end ClassDoc
