/-
  Descriptors are read exactly as the grammar has them.
-/
import ClassDoc.Descriptor
import ClassDoc.Proofs.Fault
namespace ClassDoc.Descriptor

open List

/-- Field descriptors: any number of `[`, then a letter for a primitive type or a class name between `L` and `;`. -/
inductive IsField : List Char → Prop
  | primitive {c : Char} (h : c ∈ ['B', 'C', 'D', 'F', 'I', 'J', 'S', 'Z']) : IsField [c]
  | classType {name : List Char} (hn : name ≠ []) (h : ';' ∉ name) : IsField ('L' :: name ++ [';'])
  | array {text : List Char} (h : IsField text) : IsField ('[' :: text)

/-- A method descriptor with its arguments and its result. -/
structure Splits (text : String) (arguments : List String) (result : String) : Prop where
  text_eq : text = "(" ++ String.join arguments ++ ")" ++ result
  arguments : ∀ argument ∈ arguments, IsField argument.toList
  result : result = "V" ∨ IsField result.toList

variable {text field rest : List Char}

theorem isPrimitive_iff {c : Char} : isPrimitive c = true ↔ c ∈ ['B', 'C', 'D', 'F', 'I', 'J', 'S', 'Z'] := by
  simp [isPrimitive, or_assoc]

/-! ## Fields -/

theorem IsField.dims {dims : List Char} (h : IsField text) (hd : ∀ c ∈ dims, c = '[') : IsField (dims ++ text) := by
  induction dims with
  | nil => exact h
  | cons c dims ih =>
    obtain ⟨rfl, ht⟩ := forall_mem_cons.1 hd
    exact .array (ih ht)

theorem takeField_array (h : takeField text = .ok (field, rest)) : takeField ('[' :: text) = .ok ('[' :: field, rest) := by
  simp only [takeField, takeWhile_cons, dropWhile_cons, beq_self_eq_true, if_true] at h ⊢
  split at h
  · cases h
  split at h
  · simp_all
  split at h
  · split at h
    · cases h
    split at h <;> simp_all
  · cases h

theorem takeField_append (h : IsField field) (rest : List Char) : takeField (field ++ rest) = .ok (field, rest) := by
  induction h with
  | @primitive c h =>
    have hc : c ≠ '[' := by rintro rfl; simp at h
    simp [takeField, hc, isPrimitive_iff.2 h]
  | @classType name hn h =>
    have hname : ∀ c ∈ name, isNameChar c = true := by
      intro c hc
      rw [isNameChar, bne_iff_ne]
      rintro rfl
      exact h hc
    have hs : isNameChar ';' = false := rfl
    simp [takeField, isPrimitive, takeWhile_append_of_pos hname, dropWhile_append_of_pos hname, hs, hn]
  | array _ ih => exact takeField_array ih

theorem isField_of_takeField (h : takeField text = .ok (field, rest)) : IsField field ∧ text = field ++ rest := by
  have ht := takeWhile_append_dropWhile (p := (· == '[')) (l := text)
  have hd : ∀ c ∈ text.takeWhile (· == '['), c = '[' := fun c hc => by simpa using mem_takeWhile_imp hc
  simp only [takeField] at h
  generalize text.takeWhile (· == '[') = dims at h ht hd
  split at h
  · cases h
  next c tail hdrop =>
  rw [hdrop] at ht
  split at h
  next hp =>
    cases h
    exact ⟨.dims (.primitive (isPrimitive_iff.1 hp)) hd, by simp [← ht]⟩
  split at h
  next hl =>
    obtain rfl : c = 'L' := beq_iff_eq.1 hl
    have hsplit := takeWhile_append_dropWhile (p := isNameChar) (l := tail)
    have hm : ';' ∉ tail.takeWhile isNameChar := fun hm => by simpa [isNameChar] using mem_takeWhile_imp hm
    split at h
    · cases h
    next s after hname =>
    obtain rfl : s = ';' := by
      have := head_dropWhile_not isNameChar (l := tail) (by simp [hname])
      simpa [hname, isNameChar] using this
    split at h
    · cases h
    next hn =>
      cases h
      refine ⟨?_, ?_⟩
      · simpa using IsField.dims (.classType (by simpa using hn) hm) hd
      · rw [hname] at hsplit
        simp [← ht, hsplit]
  · cases h

theorem checkField_eq_ok_iff {text : String} : checkField text = .ok () ↔ IsField text.toList := by
  rw [checkField]
  constructor
  · intro h
    obtain ⟨⟨field, rest⟩, hf, h⟩ := bind_eq_ok.1 h
    obtain ⟨hf, ht⟩ := isField_of_takeField hf
    cases rest with
    | nil => rwa [ht, append_nil]
    | cons => cases h
  · intro h
    have := takeField_append h []
    rw [append_nil] at this
    rw [this]
    rfl

theorem IsField.ne_nil (h : IsField text) : text ≠ [] := by
  cases h <;> simp

theorem not_isField_parenthesis : ¬IsField (')' :: text) := by
  intro h
  cases h with
  | primitive h => simp at h

/-! ## Methods -/

theorem isField_of_takeArguments {fuel : Nat} {found arguments : List String}
    (h : takeArguments fuel found text = .ok (arguments, rest)) :
    ∃ fields : List String, arguments = found.reverse ++ fields ∧
      (∀ f ∈ fields, IsField f.toList) ∧ text = fields.flatMap String.toList ++ ')' :: rest := by
  fun_induction takeArguments fuel found text with
  | case1 fuel found rest =>
    cases h
    exact ⟨[], by simp⟩
  | case2 | case3 => cases h
  | case4 fuel found text hp field tail hf ih =>
    obtain ⟨hfield, rfl⟩ := isField_of_takeField hf
    obtain ⟨fields, rfl, hfields, rfl⟩ := ih h
    exact ⟨String.ofList field :: fields, by simp, by simpa using ⟨hfield, hfields⟩, by simp⟩

theorem takeArguments_append {fields : List String} (hf : ∀ f ∈ fields, IsField f.toList) {fuel : Nat}
    (hl : fields.length ≤ fuel) (found : List String) (rest : List Char) :
    takeArguments fuel found (fields.flatMap String.toList ++ ')' :: rest) = .ok (found.reverse ++ fields, rest) := by
  induction fields generalizing fuel found with
  | nil => simp [takeArguments]
  | cons f fields ih =>
    obtain ⟨hfield, hf⟩ := forall_mem_cons.1 hf
    obtain ⟨fuel, rfl⟩ := Nat.exists_eq_add_of_le' hl
    have ht : ∀ tail, f.toList ++ (fields.flatMap String.toList ++ ')' :: rest) ≠ ')' :: tail := by
      intro tail h
      cases hc : f.toList with
      | nil => exact hfield.ne_nil hc
      | cons c cs =>
        rw [hc, cons_append] at h
        injection h with h
        exact not_isField_parenthesis (h ▸ hc ▸ hfield)
    rw [flatMap_cons, append_assoc, show fuel + (f :: fields).length = fuel + fields.length + 1 from rfl, takeArguments,
      takeField_append hfield]
    · simp [ih hf (Nat.le_add_left ..)]
    · exact ht

theorem length_le_of_isField {fields : List String} (hf : ∀ f ∈ fields, IsField f.toList) :
    fields.length ≤ (fields.flatMap String.toList).length := by
  induction fields with
  | nil => simp
  | cons f fields ih =>
    obtain ⟨hfield, hf⟩ := forall_mem_cons.1 hf
    have := length_pos_iff.2 hfield.ne_nil
    have := ih hf
    simp only [length_cons, flatMap_cons, length_append]
    omega

theorem splitMethod_eq_ok_iff {text result : String} {arguments : List String} :
    splitMethod text = .ok (arguments, result) ↔ Splits text arguments result := by
  constructor
  · intro h
    rw [splitMethod] at h
    split at h
    next tail ht =>
      obtain ⟨⟨fields, rest⟩, ha, hr⟩ := bind_eq_ok.1 h
      clear h
      obtain ⟨_, rfl, hf, rfl⟩ := isField_of_takeArguments ha
      have hs : ∀ rest : List Char, text.toList = '(' :: (fields.flatMap String.toList ++ ')' :: rest) →
          text = "(" ++ String.join fields ++ ")" ++ String.ofList rest := by
        intro rest ht
        simp [← String.toList_inj, ht, String.toList_join]
      dsimp only at hr
      split at hr
      next hv =>
        cases hr
        exact ⟨hs rest ht, hf, .inl (beq_iff_eq.1 hv)⟩
      next =>
        obtain ⟨_, hc, hr⟩ := bind_eq_ok.1 hr
        cases hr
        exact ⟨hs rest ht, hf, .inr (checkField_eq_ok_iff.1 hc)⟩
    next => cases h
  · rintro ⟨rfl, ha, hr⟩
    have hle : arguments.length ≤ (arguments.flatMap String.toList ++ ')' :: result.toList).length := by
      have := length_le_of_isField ha
      simp only [length_append]
      omega
    have ht : takeArguments _ [] (arguments.flatMap String.toList ++ ')' :: result.toList) = .ok
        (arguments, result.toList) :=
      takeArguments_append ha hle [] result.toList
    have hl : ("(" ++ String.join arguments ++ ")" ++ result).toList =
        '(' :: (arguments.flatMap String.toList ++ ')' :: result.toList) := by
      simp [String.toList_join]
    rw [splitMethod, hl]
    simp only [ht, ok_bind, String.ofList_toList]
    rcases hr with rfl | hr
    · rfl
    · rw [checkField_eq_ok_iff.2 hr]
      split <;> rfl

theorem Splits.length_le {text result : String} {arguments : List String} (h : Splits text arguments result) :
    arguments.length ≤ text.length := by
  have := length_le_of_isField h.arguments
  simp only [h.text_eq, ← String.length_toList, String.toList_append, String.toList_join, length_append]
  omega

/-- **Descriptors are read exactly as the grammar has them.** The field descriptors are the texts that pass the check. A
method descriptor is split into arguments and a result exactly if it is made of them, which determines them. -/
theorem descriptor_iff (text : String) : (checkField text = .ok () ↔ IsField text.toList) ∧
    (∀ arguments result, splitMethod text = .ok (arguments, result) ↔ Splits text arguments result) ∧
    ∀ arguments result arguments' result', Splits text arguments result → Splits text arguments' result' →
      arguments = arguments' ∧ result = result' := by
  refine ⟨checkField_eq_ok_iff, fun _ _ => splitMethod_eq_ok_iff, fun _ _ _ _ h h' => ?_⟩
  have := (splitMethod_eq_ok_iff.2 h).symm.trans (splitMethod_eq_ok_iff.2 h')
  simpa using this

theorem descriptor_iff_arrays : Splits "([[La/B;IJ)[D" ["[[La/B;", "I", "J"] "[D" ∧
    ∀ arguments result, Splits "([[La/B;IJ)[D" arguments result → ["[[La/B;", "I", "J"] = arguments ∧ "[D" = result := by
  have h : Splits "([[La/B;IJ)[D" ["[[La/B;", "I", "J"] "[D" := ((descriptor_iff _).2.1 _ _).1 (by cbv)
  exact ⟨h, fun _ _ => (descriptor_iff _).2.2 _ _ _ _ h⟩

end ClassDoc.Descriptor
