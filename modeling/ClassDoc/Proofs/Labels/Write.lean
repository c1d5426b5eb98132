/-
  Writing classes whose labels are in order.
-/
import ClassDoc.Proofs.ClassFile.Writer
import ClassDoc.Proofs.Labels.Code
namespace ClassDoc

namespace LabelSafe

/-! ## Attributes of elements -/

@[grind ←] theorem signatureAttribute (s : Option String) : LabelSafe (signatureAttribute s) := by
  grind [ClassDoc.signatureAttribute]

@[grind ←] theorem markerAttributes (events : List ClassEvent) : LabelSafe (markerAttributes events) := by
  grind [ClassDoc.markerAttributes]

@[grind ←] theorem elementAnnotations (events : List ClassEvent) : LabelSafe (elementAnnotations events) :=
  annotationAttributes _ _

@[grind ←] theorem encodeClasses (names : List String) : LabelSafe (encodeClasses names) := by
  grind [ClassDoc.encodeClasses]

@[grind ←] theorem fieldAttributes (header : FieldHeader) (events : List ClassEvent) :
    LabelSafe (fieldAttributes header events) := by
  have hv : LabelSafe (checkValue header.value) := by
    unfold checkValue
    split <;> grind
  grind [ClassDoc.fieldAttributes]

@[grind ←] theorem encodeParameters (parameters : List (Option String × UInt16)) :
    LabelSafe (encodeParameters parameters) := by
  grind [ClassDoc.encodeParameters]

@[grind ←] theorem parameterAnnotationsAttribute (visible : Bool) (arguments : Nat) (events : List ClassEvent) :
    LabelSafe (parameterAnnotationsAttribute visible arguments events) := by
  have hb : ∀ count annotations, LabelSafe (byParameter count annotations) := by grind [byParameter]
  have he : ∀ parameters, LabelSafe (encodeByParameter parameters) := by grind [encodeByParameter]
  grind [ClassDoc.parameterAnnotationsAttribute]

variable {events : List ClassEvent}

theorem methodAttributes (header : MethodHeader) (arguments : Nat)
    (h : WellLabelled (Element.code events)) : LabelSafe (methodAttributes header arguments events) := by
  refine bind (makeIf _ _ (encodeCode h header.access header.descriptor)) fun _ => ?_
  refine bind (makeIf _ _ (encodeClasses _)) fun _ => bind (signatureAttribute _) fun _ => ?_
  refine bind (makeIf _ _ (encodeParameters _)) fun _ => bind (markerAttributes _) fun _ => ?_
  grind

/-! ## Attributes of classes -/

@[grind ←] theorem encodeEnclosing (enclosing : String × Option String × Option String) :
    LabelSafe (encodeEnclosing enclosing) := by
  obtain ⟨owner, name, descriptor⟩ := enclosing
  cases name <;> cases descriptor <;> grind [ClassDoc.encodeEnclosing]

@[grind ←] theorem encodeInner (inner : InnerClass) : LabelSafe (encodeInner inner) := by grind [ClassDoc.encodeInner]

@[grind ←] theorem encodeComponent (c : RecordComponent) : LabelSafe (encodeComponent c) := by
  refine inPlace _ (bind (lift (ofDescriptor _)) fun _ => bind (utf8 _) fun _ => bind (utf8 _) fun _ => ?_)
  grind

@[grind ←] theorem moduleAttributes (m : ModuleInfo) : LabelSafe (moduleAttributes m) := by
  have hr : ∀ r, LabelSafe (encodeRequire r) := by grind [encodeRequire]
  have hp : ∀ p, LabelSafe (encodePackage p) := by grind [encodePackage]
  have hv : ∀ p, LabelSafe (encodeProvide p) := by grind [encodeProvide]
  have hm : LabelSafe (encodeModule m) := by
    refine bind (module _) fun _ => bind (optionalUtf8 _) fun _ => bind (encodeList fun r _ => hr r) fun _ => ?_
    grind
  grind [ClassDoc.moduleAttributes]

@[grind ←] theorem getPool : LabelSafe (get : PoolM Pool) := by
  rintro f ⟨s, t, h⟩
  cases h

@[grind ←] theorem bootstrapAttribute : LabelSafe bootstrapAttribute := by
  have hb : ∀ b : BootstrapMethod, LabelSafe b.encode := by grind [BootstrapMethod.encode]
  have he : ∀ pool : Pool, LabelSafe pool.encodeMethods := by grind [Pool.encodeMethods]
  grind [ClassDoc.bootstrapAttribute]

theorem optionalModule (m : Option ModuleInfo) : LabelSafe (optionalModule m) := by
  cases m <;> grind [ClassDoc.optionalModule]

theorem ownAttributes (events : List ClassEvent) : LabelSafe (ownAttributes events) := by
  refine bind (makeFor _ _ fun s => indexBytes (utf8 s)) fun _ => bind (makeFor _ _ fun s => pure _) fun _ => ?_
  refine bind (signatureAttribute _) fun _ => bind (makeFor _ _ encodeEnclosing) fun _ => ?_
  refine bind (makeFor _ _ fun s => indexBytes (classRef s)) fun _ => bind (makeIf _ _ (encodeClasses _)) fun _ => ?_
  refine bind (makeIf _ _ (encodeClasses _)) fun _ => bind (makeIf _ _ (encodeList fun i _ => encodeInner i)) fun _ => ?_
  refine bind (markerAttributes _) fun _ => bind (elementAnnotations _) fun _ => ?_
  exact bind (makeFor _ _ fun cs => encodeList fun c _ => encodeComponent c) fun _ => bind (optionalModule _) fun _ => pure _

theorem classAttributes (events : List ClassEvent) : LabelSafe (classAttributes events) :=
  bind (ownAttributes events) fun _ => bind bootstrapAttribute fun _ => pure _

/-! ## Members -/

@[grind ←] theorem inPool {α : Type} {x : PoolM α} (h : LabelSafe x) : LabelSafe (ClassWriter.inPool x) := by
  rintro f ⟨w, t, hf⟩
  rw [ClassWriter.inPool] at hf
  cases hx : x w.pool with
  | ok a pool => simp [hx] at hf
  | error g pool =>
    simp only [hx, EStateM.Result.error.injEq] at hf
    exact hf.1 ▸ h g ⟨w.pool, pool, hx⟩

@[grind ←] theorem modifyWriter (change : ClassWriter → ClassWriter) : LabelSafe (modify change : WriterM Unit) := by
  rintro f ⟨w, t, h⟩
  cases h

@[grind ←] theorem getWriter : LabelSafe (get : WriterM ClassWriter) := by
  rintro f ⟨w, t, h⟩
  cases h

theorem writeField (header : FieldHeader) (events : List ClassEvent) : LabelSafe (ClassWriter.writeField header events) := by
  refine bind (lift (ofDescriptor _)) fun _ => bind (modifyWriter _) fun _ => ?_
  refine bind (inPool (indexBytes (utf8 _))) fun _ => bind (modifyWriter _) fun _ => ?_
  refine bind (inPool (indexBytes (utf8 _))) fun _ => bind (modifyWriter _) fun _ => ?_
  exact bind (inPool (fieldAttributes _ _)) fun _ => bind (lift (encodeAll _)) fun _ => modifyWriter _

theorem writeMethod (header : MethodHeader) (h : WellLabelled (Element.code events)) :
    LabelSafe (ClassWriter.writeMethod header events) := by
  refine bind (lift (ofDescriptor _)) fun x => bind (modifyWriter _) fun _ => ?_
  refine bind (inPool (indexBytes (utf8 _))) fun _ => bind (modifyWriter _) fun _ => ?_
  refine bind (inPool (indexBytes (utf8 _))) fun _ => bind (modifyWriter _) fun _ => ?_
  exact bind (inPool (methodAttributes _ _ h)) fun _ => bind (lift (encodeAll _)) fun _ => modifyWriter _

theorem writeHeader (header : ClassHeader) : LabelSafe (ClassWriter.writeHeader header) := by
  refine bind getWriter fun w => ?_
  split
  · exact throw rfl
  · refine bind (mapM _ fun _ _ => inPool (classRef _)) fun _ => bind (inPool (classRef _)) fun _ => ?_
    exact bind (inPool (optionalClass _)) fun _ => modifyWriter _

end LabelSafe

namespace ClassWriter

variable {w t : ClassWriter} {e : ClassEvent} {f : Fault} {rest : List ClassEvent}

/-! ## Events -/

def Pending (w : ClassWriter) (rest : List ClassEvent) : Prop := ∀ header events, w.member = some (.method header, events) →
  WellLabelled (Element.code (events.reverse ++ rest.takeWhile fun e => !e.isBoundary))

theorem Pending.finishMember_safe (hp : w.Pending (e :: rest)) (he : e.isBoundary = true) (h : finishMember w = .error f t) :
    f.cause.isLabel = false := by
  rcases hm : w.member with _ | ⟨header | header, events⟩
  · rw [finishMember_of_none hm] at h
    cases h
  · rw [finishMember_apply hm] at h
    exact LabelSafe.bind (LabelSafe.inPlace _ (LabelSafe.writeField header events.reverse))
      (fun _ => LabelSafe.modifyWriter _) f ⟨_, t, h⟩
  · have hc := hp header events hm
    rw [List.takeWhile_cons_of_neg (by simp [he]), List.append_nil] at hc
    rw [finishMember_apply hm] at h
    exact LabelSafe.bind (LabelSafe.inPlace _ (LabelSafe.writeMethod header hc))
      (fun _ => LabelSafe.modifyWriter _) f ⟨_, t, h⟩

theorem Pending.accept_safe (hp : w.Pending (e :: rest)) (h : accept e w = .error f t) : f.cause.isLabel = false := by
  by_cases hh : e.level = .header
  · obtain ⟨header, rfl⟩ : ∃ header, e = .header header := by
      cases e with
      | header header => exact ⟨header, rfl⟩
      | _ => cases hh
    rw [accept_header_apply] at h
    split at h
    · cases h
      rfl
    · exact LabelSafe.writeHeader header f ⟨w, t, h⟩
  · rw [accept_apply hh] at h
    split at h
    · cases h
      rfl
    split at h
    · cases h
      rfl
    cases hb : e.isBoundary with
    | false =>
      rw [acceptInside_apply hb] at h
      simp only [keep_eq] at h
      split at h <;> cases h <;> rfl
    | true =>
      cases e with
      | field | method | done =>
        rcases run_bind_eq_error.1 h with h | ⟨_, _, -, h⟩
        · exact hp.finishMember_safe hb h
        · cases h
      | _ => cases hb

theorem Pending.accept (hp : w.Pending (e :: rest))
    (hm : ∀ header, e = .method header → WellLabelled (Element.code (rest.takeWhile fun e => !e.isBoundary))) {u : Unit}
    (h : accept e w = .ok u t) : t.Pending rest := by
  by_cases hh : e.level = .header
  · obtain ⟨header, rfl⟩ : ∃ header, e = .header header := by
      cases e with
      | header header => exact ⟨header, rfl⟩
      | _ => cases hh
    obtain ⟨-, -, written, pool, -, rfl⟩ := accept_header_eq_ok.1 h
    intro header' events he
    have hc := hp header' events he
    rw [List.takeWhile_cons_of_pos (by rfl)] at hc
    simpa [Element.code] using hc
  cases hb : e.isBoundary with
  | false =>
    obtain ⟨-, -, rfl⟩ := (accept_kept_eq_ok hh hb).1 h
    intro header events he
    rcases hw : w.member with _ | ⟨member, kept⟩
    · simp [ClassWriter.kept, hw] at he
    · simp only [ClassWriter.kept, hw, Option.some.injEq, Prod.mk.injEq] at he
      obtain ⟨rfl, rfl⟩ := he
      have hc := hp header kept hw
      rw [List.takeWhile_cons_of_pos (by simp [hb])] at hc
      simpa using hc
  | true =>
    cases e with
    | field header =>
      obtain ⟨-, r, -, rfl⟩ := (accept_member_eq_ok (.field header)).1 h
      intro _ _ he
      cases he
    | method header =>
      obtain ⟨-, r, -, rfl⟩ := (accept_member_eq_ok (.method header)).1 h
      intro _ _ he
      cases he
      exact hm header rfl
    | done =>
      obtain ⟨-, r, hr, rfl⟩ := accept_done_eq_ok.1 h
      intro _ _ he
      have := member_of_finishMember hr
      simp_all
    | _ => cases hb

theorem Pending.run_safe {es : List ClassEvent} (hp : w.Pending es) (hc : ∀ code ∈ methodCodes es, WellLabelled code)
    (h : es.forM ClassWriter.accept w = .error f t) : f.cause.isLabel = false := by
  induction es generalizing w with
  | nil => cases h
  | cons e es ih =>
    rcases run_bind_eq_error.1 h with h | ⟨u, r, hr, h⟩
    · exact hp.accept_safe h
    · refine ih (hp.accept ?_ hr) (fun code hm => hc code ?_) h
      · rintro header rfl
        exact hc _ (by simp [methodCodes])
      · cases e <;> simp_all [methodCodes]

theorem finish_safe (w : ClassWriter) : LabelSafe w.finish := by
  unfold finish
  split
  · exact .error rfl
  · split
    · exact .error rfl
    · have hs := LabelSafe.classAttributes w.events.reverse
      split
      · rename_i f' pool hf
        exact .error (hs f' ⟨_, _, hf⟩)
      · have he : ∀ e : PoolEntry, LabelSafe e.encode := fun e => by
          have hb : LabelSafe e.body := by cases e <;> grind [PoolEntry.body]
          grind [PoolEntry.encode]
        have hp : ∀ pool : Pool, LabelSafe pool.encode := by grind [Pool.encode]
        have hh : ∀ header pool, LabelSafe (encodeHeader header pool) := by grind [encodeHeader]
        grind

end ClassWriter

end ClassDoc
