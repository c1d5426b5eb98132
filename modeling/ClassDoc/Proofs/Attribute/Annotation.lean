/-
  Annotations are read back from the bytes they are written as.
-/
import ClassDoc.Proofs.Pool.Puts
namespace ClassDoc

open List

variable {full : Bool} {bytes : Bytes} {parts : List Bytes} {V : PoolView}

/-! ## Values -/

def DecodesElement (V : PoolView) (value : Decode ElementValue) (part : Bytes) (e : String × ElementValue) : Prop :=
  ∃ name bytes, part = name ++ bytes ∧ Decodes (decodeIndex V.utf8) name e.1 ∧ Decodes value bytes e.2

theorem decodes_nested {value : Decode ElementValue} {a : Annotation} {descriptor count : Bytes}
    (hd : Decodes (decodeIndex V.utf8) descriptor a.descriptor)
    (hc : Bytes.count2 a.elements.length = .ok count)
    (he : Forall₂ (DecodesElement V value) parts a.elements) :
    Decodes (decodeNested V value) (descriptor ++ (count ++ parts.flatten)) a := by
  refine hd.bind (Decodes.map (Decodes.inside _ (.list hc (he.imp ?_))))
  rintro part e ⟨name, bytes, rfl, hn, hb⟩
  exact hn.bind hb.map

theorem decodes_value {v : ElementValue} {c : UInt8}
    (h : ∀ fuel, bytes.length ≤ fuel → Decodes (ElementValue.decode V (fuel + 1)) (c :: bytes) v) :
    ∀ fuel, (c :: bytes).length ≤ fuel → Decodes (ElementValue.decode V fuel) (c :: bytes) v := by
  intro fuel hf
  cases fuel with
  | zero => exact absurd hf (by simp)
  | succ fuel => exact h fuel (by simpa using hf)

theorem puts_putInteger (v : Int32) :
    Puts full (putInteger v) fun V bytes => Decodes (decodeIndex V.integer) bytes v :=
  puts_indexBytes ((puts_put _).mono fun V i he => by rw [PoolView.integer, he, ok_bind])

theorem puts_utf8Bytes (s : String) :
    Puts full (indexBytes (Pool.utf8 s)) fun V bytes => Decodes (decodeIndex V.utf8) bytes s :=
  puts_indexBytes (puts_utf8 s)

mutual

theorem puts_value : (v : ElementValue) → Puts full v.encode fun V bytes =>
    ∀ fuel, bytes.length ≤ fuel → Decodes (ElementValue.decode V fuel) bytes v
  | .byte v => (puts_putInteger _).map fun V b h => decodes_value fun fuel _ =>
    (decodes_u1 _).bind (h.map_eq (by simp))
  | .char v => (puts_putInteger _).map fun V b h => decodes_value fun fuel _ =>
    (decodes_u1 _).bind (h.map_eq (by simp))
  | .short v => (puts_putInteger _).map fun V b h => decodes_value fun fuel _ =>
    (decodes_u1 _).bind (h.map_eq (by simp))
  | .boolean v => (puts_putInteger _).map fun V b h => decodes_value fun fuel _ =>
    (decodes_u1 _).bind (h.map_eq (by cases v <;> rfl))
  | .int v => (puts_putInteger _).map fun V b h => decodes_value fun fuel _ => (decodes_u1 _).bind h.map
  | .long v => (puts_indexBytes ((puts_put _).mono fun V i he => by rw [PoolView.long, he, ok_bind])).map
      fun V b h => decodes_value fun fuel _ => (decodes_u1 _).bind h.map
  | .float v => (puts_indexBytes ((puts_put _).mono fun V i he => by rw [PoolView.float, he, ok_bind])).map
      fun V b h => decodes_value fun fuel _ => (decodes_u1 _).bind h.map
  | .double v => (puts_indexBytes ((puts_put _).mono fun V i he => by rw [PoolView.double, he, ok_bind])).map
      fun V b h => decodes_value fun fuel _ => (decodes_u1 _).bind h.map
  | .string v => (puts_indexBytes (puts_text v)).map fun V b h => decodes_value fun fuel _ => (decodes_u1 _).bind h.map
  | .classRef d => (puts_utf8Bytes d).map fun V b h => decodes_value fun fuel _ => (decodes_u1 _).bind h.map
  | .enum d n => (puts_utf8Bytes d).bind fun db => (puts_utf8Bytes n).map fun V nb hn hd => decodes_value fun fuel _ =>
    (decodes_u1 _).bind (hd.bind hn.map)
  | .nested d es => (puts_utf8Bytes d).bind fun db => (Puts.lift _).bind fun count => (puts_elements es).map
    fun V b h hc hd => decodes_value fun fuel hf => by
      obtain ⟨parts, rfl, he⟩ := h
      rw [append_assoc] at hf ⊢
      simp only [length_append] at hf
      have hn := decodes_nested (a := ⟨d, es⟩) hd hc (he fuel (by omega))
      exact (decodes_u1 _).bind hn.map
  | .array vs => (Puts.lift _).bind fun count => (puts_values vs).map fun V b h hc => decodes_value fun fuel hf => by
      obtain ⟨parts, rfl, hv⟩ := h
      simp only [length_append] at hf
      exact (decodes_u1 _).bind (Decodes.map (.list hc (hv fuel (by omega))))

theorem puts_elements : (es : List (String × ElementValue)) → Puts full (ElementValue.encodeElements es) fun V bytes =>
    ∃ parts, bytes = parts.flatten ∧
      ∀ fuel, bytes.length ≤ fuel → Forall₂ (DecodesElement V (ElementValue.decode V fuel)) parts es
  | [] => .pure fun V => ⟨[], rfl, fun _ _ => .nil⟩
  | (name, v) :: es => (puts_utf8Bytes name).bind fun nb => (puts_value v).bind fun vb => (puts_elements es).map
    fun V b h hv hn => by
      obtain ⟨parts, rfl, he⟩ := h
      refine ⟨(nb ++ vb) :: parts, rfl, fun fuel hf => ?_⟩
      simp only [length_append] at hf
      exact .cons ⟨nb, vb, rfl, hn, hv fuel (by omega)⟩ (he fuel (by omega))

theorem puts_values : (vs : List ElementValue) → Puts full (ElementValue.encodeAll vs) fun V bytes =>
    ∃ parts, bytes = parts.flatten ∧
      ∀ fuel, bytes.length ≤ fuel → Forall₂ (Decodes (ElementValue.decode V fuel)) parts vs
  | [] => .pure fun V => ⟨[], rfl, fun _ _ => .nil⟩
  | v :: vs => (puts_value v).bind fun vb => (puts_values vs).map fun V b h hv => by
      obtain ⟨parts, rfl, hp⟩ := h
      refine ⟨vb :: parts, rfl, fun fuel hf => ?_⟩
      simp only [length_append] at hf
      exact .cons (hv fuel (by omega)) (hp fuel (by omega))

end

/-! ## Annotations -/

theorem puts_annotationBytes (a : Annotation) : Puts full a.encode fun V bytes =>
    ∀ fuel, bytes.length ≤ fuel → Decodes (decodeNested V (ElementValue.decode V fuel)) bytes a :=
  (puts_utf8Bytes a.descriptor).bind fun db => (Puts.lift _).bind fun count => (puts_elements a.elements).map
    fun V b h hc hd fuel hf => by
      obtain ⟨parts, rfl, he⟩ := h
      rw [append_assoc] at hf ⊢
      simp only [length_append] at hf
      exact decodes_nested hd hc (he fuel (by omega))

theorem puts_annotations (as : List Annotation) : Puts full (encodeList Annotation.encode as) fun V bytes =>
    Decodes (decodeAnnotations V) bytes as := by
  refine (puts_encodeList_rel (r := fun a b => b = a) fun a _ => (puts_annotationBytes a).mono fun V bytes h =>
    ⟨a, rfl, h⟩).mono fun V bytes h => ?_
  obtain ⟨bs, hbs, hd⟩ := h
  obtain rfl : bs = as := forall₂_eq_eq_eq ▸ hbs.flip
  exact .bytesLeft hd

/-! ## On types -/

/-- The labels are known where the code is, and no offset is behind its end. -/
structure Offsets.Within (offsets : Offsets) (length : Option UInt16) : Prop where
  isSome_eq : offsets.isSome = length.isSome
  le : ∀ {l o n}, offsets.of l = .ok o → length = some n → o ≤ n

variable {offsets : Offsets} {length : Option UInt16}

theorem Offsets.Within.checkedOffset (h : offsets.Within length) {l : Label} {o : UInt16} (ho : offsets.of l = .ok o) :
    checkedOffset length o = .ok o := by
  cases length with
  | none => rfl
  | some n =>
    have hn : ¬ n < o := by
      have := h.le ho rfl
      rw [UInt16.le_iff_toNat_le] at this
      rw [UInt16.lt_iff_toNat_lt]
      omega
    rw [ClassDoc.checkedOffset, checkOffset, if_neg hn]
    rfl

theorem rangeEnd_sub {start stop : UInt16} (h : start ≤ stop) : rangeEnd start (stop - start) = .ok stop := by
  have hlt := stop.toNat_lt
  rw [rangeEnd, UInt16.toNat_sub_of_le _ _ h, add_comm start, UInt16.sub_add_cancel, if_pos]
  rw [UInt16.le_iff_toNat_le] at h
  omega

theorem decodes_range (h : offsets.Within length) {r : LocalRange Label}
    (hb : r.encode offsets = .ok bytes) : ∃ start stop, offsets.of r.start = .ok start ∧
      offsets.of r.stop = .ok stop ∧ Decodes (decodeRange length) bytes ⟨start, stop, r.index⟩ := by
  obtain ⟨start, hs, hb⟩ := bind_eq_ok.1 hb
  obtain ⟨stop, ht, hb⟩ := bind_eq_ok.1 hb
  refine ⟨start, stop, hs, ht, ?_⟩
  split at hb
  next => exact nomatch hb
  next hle =>
    obtain rfl := Except.ok.inj hb
    have hle : start ≤ stop := UInt16.not_lt.1 hle
    rw [append_assoc]
    refine (decodes_u2 start).bind ((decodes_u2 _).bind ((decodes_u2 r.index).bind_nil ?_))
    exact .lift_bind (rangeEnd_sub hle) (.lift_bind (h.checkedOffset hs) (.lift_bind (h.checkedOffset ht) (.pure _)))

theorem decodes_ranges (h : offsets.Within length) {rs : List (LocalRange Label)}
    (hp : Forall₂ (fun r b => LocalRange.encode offsets r = .ok b) rs parts) :
    ∃ rs', Forall₂ (fun r r' => offsets.of r.start = .ok r'.start ∧ offsets.of r.stop = .ok r'.stop ∧
      r.index = r'.index) rs rs' ∧ Forall₂ (Decodes (decodeRange length)) parts rs' := by
  induction hp with
  | nil => exact ⟨[], .nil, .nil⟩
  | cons hb _ ih =>
    obtain ⟨start, stop, hs, ht, hd⟩ := decodes_range h hb
    obtain ⟨rs', hr, hds⟩ := ih
    exact ⟨_ :: rs', .cons ⟨hs, ht, rfl⟩ hr, .cons hd hds⟩

theorem decodes_target (h : offsets.Within length) {t : TypeTarget Label} (hb : t.encode offsets = .ok bytes) :
    ∃ t', t.mapLabels offsets.of = .ok t' ∧ Decodes (TypeTarget.decode length t.form) bytes t' := by
  cases t with
  | typeParameter n | formalParameter n => exact ⟨_, rfl, Except.ok.inj hb ▸ (decodes_u1 n).map⟩
  | supertype n | throws n | «catch» n => exact ⟨_, rfl, Except.ok.inj hb ▸ (decodes_u2 n).map⟩
  | typeParameterBound n k => exact ⟨_, rfl, Except.ok.inj hb ▸ (decodes_u1 n).bind (decodes_u1 k).map⟩
  | empty => exact ⟨_, rfl, Except.ok.inj hb ▸ .pure _⟩
  | localVariable rs =>
    obtain ⟨count, hc, hb⟩ := bind_eq_ok.1 hb
    obtain ⟨parts, hp, hb⟩ := bind_eq_ok.1 hb
    obtain ⟨rs', hr, hd⟩ := decodes_ranges h (mapM_eq_ok_iff.1 hp)
    refine ⟨.localVariable rs', bind_eq_ok.2 ⟨rs', mapM_eq_ok_iff.2 (hr.imp fun r r' hrr => ?_), rfl⟩, ?_⟩
    · simp [hrr]
    · exact Except.ok.inj hb ▸ Decodes.map (.list (hr.length_eq ▸ hc) hd)
  | offset l =>
    obtain ⟨o, ho, hb⟩ := bind_eq_ok.1 hb
    refine ⟨.offset o, bind_eq_ok.2 ⟨o, ho, rfl⟩, Except.ok.inj hb ▸ ?_⟩
    exact (decodes_u2 o).bind_nil (.lift_bind (h.checkedOffset ho) (.pure _))
  | typeArgument l n =>
    obtain ⟨o, ho, hb⟩ := bind_eq_ok.1 hb
    refine ⟨.typeArgument o n, bind_eq_ok.2 ⟨o, ho, rfl⟩, Except.ok.inj hb ▸ ?_⟩
    exact (decodes_u2 o).bind (.lift_bind (h.checkedOffset ho) (decodes_u1 n).map)

theorem decodes_path {path : List PathStep} (h : encodePath path = .ok bytes) :
    Decodes (Decode.shortList decodeStep) bytes path := by
  obtain ⟨count, hc, h⟩ := bind_eq_ok.1 h
  obtain rfl := Except.ok.inj h
  refine .shortList hc ?_
  rw [forall₂_map_left_iff, forall₂_same]
  exact fun step _ => (decodes_u1 _).bind (decodes_u1 _).map

theorem check_eq_ok {inCode : Bool} {a : TypeAnnotation Label} {u : Unit}
    (h : TypeAnnotation.check inCode a = .ok u) :
    TargetType.form? a.targetType = some a.target.form ∧ TargetType.isCode a.targetType = inCode := by
  unfold TypeAnnotation.check at h
  split at h
  next => exact nomatch h
  next hf =>
    split at h
    next => exact nomatch h
    next hc => exact ⟨by simpa [TypeTarget.fits] using hf, by simpa using hc⟩

/-- **An annotation on a type is read back with the offsets of its labels.** -/
theorem puts_typeAnnotation (h : offsets.Within length) (a : TypeAnnotation Label) :
    Puts full (a.encode offsets) fun V bytes => ∃ a', a.mapLabels offsets.of = .ok a' ∧
      ∀ fuel, bytes.length ≤ fuel → Decodes (d := TypeAnnotation.decode V length fuel) bytes a' := by
  refine (Puts.lift _).bind fun _ => (Puts.lift _).bind fun target => (Puts.lift _).bind fun path =>
    (puts_annotationBytes a.base).map fun V b hb hp ht hc => ?_
  obtain ⟨hf, hi⟩ := check_eq_ok hc
  obtain ⟨t', ht', hd⟩ := decodes_target h ht
  refine ⟨⟨a.targetType, t', a.path, a.base⟩, bind_eq_ok.2 ⟨t', ht', rfl⟩, fun fuel hfuel => ?_⟩
  simp only [append_assoc, length_append] at hfuel ⊢
  refine (decodes_u1 _).bind ?_
  have hn : (TargetType.isCode a.targetType && length.isNone) = false := by
    rw [hi, h.isSome_eq]
    cases length <;> rfl
  simp only [hn, hf]
  exact hd.bind ((decodes_path hp).bind (hb fuel (by omega)).map)

theorem puts_typeAnnotations (h : offsets.Within length) (as : List <| TypeAnnotation Label) :
    Puts full (encodeList (·.encode offsets) as) fun V bytes =>
      ∃ as', as.mapM (·.mapLabels offsets.of) = .ok as' ∧ Decodes (decodeTypes V length) bytes as' :=
  (puts_encodeList_rel fun a _ => puts_typeAnnotation h a).mono fun V bytes hb => by
    obtain ⟨as', hr, hd⟩ := hb
    exact ⟨as', mapM_eq_ok_iff.2 hr, .bytesLeft hd⟩

end ClassDoc
