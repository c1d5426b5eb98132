/-
  Escaped names read back.
-/
import ClassDoc.Name.Escape
import ClassDoc.Proofs.Text.Hex
namespace ClassDoc.Name

/-! ## Characters -/

theorem table_spec : ∀ p ∈ table, p.2 ≠ 'x' ∧ p.2 ≠ 'y' ∧ ofLetter? p.2 = some p.1 ∧ p.2.isAlphanum ∨ p.2 = '_' ∧
    ofLetter? p.2 = some p.1 := by decide

variable {c d l : Char} {s name descriptor text : String} {segments : List String}

theorem letter?_eq_some (h : letter? c = some l) : (c, l) ∈ table := by
  obtain ⟨p, hp, rfl⟩ := Option.map_eq_some_iff.1 h
  have hc := List.find?_some hp
  rw [beq_iff_eq] at hc
  exact hc ▸ List.mem_of_find?_eq_some hp

theorem ofLetter?_letter (h : letter? c = some l) : l ≠ 'x' ∧ l ≠ 'y' ∧ ofLetter? l = some c := by
  rcases table_spec _ (letter?_eq_some h) with ⟨h1, h2, h3, -⟩ | ⟨h1, h2⟩
  · exact ⟨h1, h2, h3⟩
  · exact ⟨by rw [show l = '_' from h1]; decide, by rw [show l = '_' from h1]; decide, h2⟩

theorem charOf?_toNat (c : Char) : charOf? c.toNat = some c := by
  have hv : c.toNat.isValidChar := c.valid
  simp [charOf?, hv, Char.ofNat_toNat]

theorem unescapeNumber_fixed (count : Nat) (letter : Char) (hw : c.toNat < 16 ^ count) (hp : isPlain c = false)
    (hl : letter? c = none) (hc : (count == 6) = decide (c.toNat > 0xFFFF)) (rest : List Char) :
    unescapeNumber count letter (Hex.fixed count c.toNat ++ rest) = .ok (c, rest) := by
  have ht : (Hex.fixed count c.toNat ++ rest).take count = Hex.fixed count c.toNat :=
    List.take_left' (Hex.length_fixed _ _)
  have hd : (Hex.fixed count c.toNat ++ rest).drop count = rest := List.drop_left' (Hex.length_fixed _ _)
  simp only [unescapeNumber, ht, hd, Hex.length_fixed, Hex.all_isUpperDigit_fixed, Hex.toNat?_fixed_of_lt hw,
    Option.getD_some, charOf?_toNat, hp, hl, hc]
  simp

theorem toNat_lt_pow (c : Char) : c.toNat < 16 ^ 6 := by
  rcases c.valid with h | ⟨-, h⟩
  · exact Nat.lt_trans (show c.toNat < 0xD800 from h) (by decide)
  · exact Nat.lt_trans (show c.toNat < 0x110000 from h) (by decide)

theorem unescapeChar_escapeChar (c : Char) (rest : List Char) :
    unescapeChar (escapeChar c ++ rest) = .ok (c, rest) := by
  unfold escapeChar
  by_cases hp : isPlain c = true
  · simp [hp, unescapeChar]
  rw [Bool.not_eq_true] at hp
  have hu : isPlain '_' = false := by decide
  cases hl : letter? c with
  | some l =>
    obtain ⟨hx, hy, ho⟩ := ofLetter?_letter hl
    simp [hp, unescapeChar, hu, hx, hy, ho]
  | none =>
    by_cases hn : c.toNat ≤ 0xFFFF
    · have := unescapeNumber_fixed 4 'x' (by omega) hp hl (by simp; omega) rest
      simp [hp, hn, unescapeChar, hu, this]
    · have := unescapeNumber_fixed 6 'y' (toNat_lt_pow c) hp hl (by simp; omega) rest
      simp [hp, hn, unescapeChar, hu, this]

theorem isUpperDigit_isAlphanum (h : Hex.isUpperDigit c = true) : c.isAlphanum = true := by
  simp only [Hex.isUpperDigit, Char.isAlphanum, Char.isAlpha, Char.isUpper, Char.isLower, Char.isDigit, Bool.or_eq_true,
    Bool.and_eq_true, decide_eq_true_eq, Char.le_def, UInt32.le_iff_toNat_le] at h ⊢
  simp only [Char.reduceVal, UInt32.reduceToNat] at h ⊢
  omega

theorem isAlphanum_of_mem_escapeChar (h : d ∈ escapeChar c) : d.isAlphanum = true ∨ d = '_' := by
  unfold escapeChar at h
  split at h
  next hp => exact Or.inl (List.mem_singleton.1 h ▸ hp)
  next =>
    split at h
    next l hl =>
      rcases List.mem_cons.1 h with h | h
      · exact Or.inr h
      · rw [List.mem_singleton.1 h]
        rcases table_spec _ (letter?_eq_some hl) with ⟨-, -, -, h⟩ | ⟨h, -⟩
        · exact Or.inl h
        · exact Or.inr h
    next =>
      have hf : ∀ w n, d ∈ Hex.fixed w n → d.isAlphanum = true := fun w n hd =>
        isUpperDigit_isAlphanum (List.all_eq_true.1 (Hex.all_isUpperDigit_fixed w n) d hd)
      split at h
      all_goals
        rcases List.mem_cons.1 h with h | h
        · exact Or.inr h
        rcases List.mem_cons.1 h with h | h
        · exact Or.inl (by rw [h]; decide)
        · exact Or.inl (hf _ _ h)

theorem escapeChar_ne_nil (c : Char) : escapeChar c ≠ [] := by
  unfold escapeChar; split
  · simp
  · split
    · simp
    · split <;> simp

theorem toNat_of_charOf? {code : Nat} (h : charOf? code = some c) : c.toNat = code := by
  obtain ⟨hv, hc⟩ := Option.ite_none_right_eq_some.1 h
  cases hc
  rw [Char.toNat_ofNat, if_pos hv]

theorem unescapeNumber_eq_ok {count : Nat} {letter : Char} {text rest : List Char}
    (h : unescapeNumber count letter text = .ok (c, rest)) :
    text = Hex.fixed count c.toNat ++ rest ∧ isPlain c = false ∧ letter? c = none ∧
      (count == 6) = decide (c.toNat > 0xFFFF) := by
  simp only [unescapeNumber] at h
  split at h
  · cases h
  next hd =>
    simp only [Bool.or_eq_true, decide_eq_true_eq, not_or, Bool.not_eq_true', Bool.not_eq_false, ne_eq, not_not] at hd
    obtain ⟨n, hn, hf⟩ := Hex.fixed_of_toNat? hd.2
    rw [hn, Option.getD_some] at h
    split at h
    · cases h
    next d hc =>
      split at h
      · cases h
      next hs =>
        cases h
        obtain rfl := toNat_of_charOf? hc
        simp only [Bool.or_eq_true, not_or, Bool.not_eq_true, Option.isSome_eq_false_iff,
          Option.isNone_iff_eq_none, bne_iff_ne,
          ne_eq, not_not] at hs
        refine ⟨?_, hs.1.1, hs.1.2, hs.2⟩
        rw [← hd.1, hf, hd.1, List.take_append_drop]

theorem unescapeChar_eq_ok {text rest : List Char} (h : unescapeChar text = .ok (c, rest)) :
    text = escapeChar c ++ rest := by
  have htable : ∀ p ∈ table, isPlain p.1 = false ∧ letter? p.1 = some p.2 := by decide
  cases text with
  | nil => cases h
  | cons first text =>
    rw [unescapeChar.eq_def] at h
    dsimp only at h
    split at h
    next hp =>
      cases h
      simp [escapeChar, hp]
    next =>
      split at h
      · cases h
      next hu =>
        obtain rfl : first = '_' := by simpa using hu
        cases text with
        | nil => cases h
        | cons letter text =>
          dsimp only at h
          split at h
          next hx =>
            obtain ⟨rfl, hp, hl, hn⟩ := unescapeNumber_eq_ok h
            obtain rfl := beq_iff_eq.1 hx
            have hn : c.toNat ≤ 0xFFFF := by simpa using hn
            simp [escapeChar, hp, hl, hn]
          next =>
            split at h
            next hy =>
              obtain ⟨rfl, hp, hl, hn⟩ := unescapeNumber_eq_ok h
              obtain rfl := beq_iff_eq.1 hy
              have hn : ¬ c.toNat ≤ 0xFFFF := by simpa using hn
              simp [escapeChar, hp, hl, hn]
            next =>
              split at h
              next d hd =>
                cases h
                obtain ⟨p, hp, rfl⟩ := Option.map_eq_some_iff.1 hd
                have hl := List.find?_some hp
                obtain rfl : p.2 = letter := by simpa using hl
                obtain ⟨h1, h2⟩ := htable p (List.mem_of_find?_eq_some hp)
                simp [escapeChar, h1, h2]
              next => cases h

/-! ## Names -/

theorem toList_escape (s : String) : (escape s).toList = s.toList.flatMap escapeChar := by simp [escape]

theorem isAlphanum_of_mem_escape (h : d ∈ (escape s).toList) : d.isAlphanum = true ∨ d = '_' := by
  rw [toList_escape] at h
  obtain ⟨c, -, hc⟩ := List.mem_flatMap.1 h
  exact isAlphanum_of_mem_escapeChar hc

theorem not_mem_escape (h : d.isAlphanum = false) (h' : d ≠ '_') (s : String) : d ∉ (escape s).toList := by
  intro hd
  rcases isAlphanum_of_mem_escape hd with h1 | h1
  · rw [h] at h1; cases h1
  · exact h' h1

theorem unescapeAll_escape (cs found : List Char) (fuel : Nat) (h : cs.length ≤ fuel) :
    unescapeAll fuel found (cs.flatMap escapeChar) = .ok (found.reverse ++ cs) := by
  induction cs generalizing found fuel with
  | nil => cases fuel <;> simp [unescapeAll]
  | cons c cs ih =>
    obtain ⟨fuel, rfl⟩ : ∃ f, fuel = f + 1 := ⟨fuel - 1, by simp at h; omega⟩
    have hc := unescapeChar_escapeChar c (cs.flatMap escapeChar)
    obtain ⟨d, ds, hd⟩ := List.exists_cons_of_ne_nil (escapeChar_ne_nil c)
    rw [List.flatMap_cons]
    rw [hd, List.cons_append] at hc ⊢
    rw [unescapeAll, hc]
    · simpa using ih (c :: found) fuel (by simpa using h)
    · simp

theorem length_le_escape (cs : List Char) : cs.length ≤ (cs.flatMap escapeChar).length := by
  induction cs with
  | nil => simp
  | cons c cs ih =>
    have := List.length_pos_iff.2 (escapeChar_ne_nil c)
    simp only [List.flatMap_cons, List.length_append, List.length_cons]
    omega

theorem escape_ne_empty (h : s ≠ "") : escape s ≠ "" := by
  intro he
  have hl := length_le_escape s.toList
  rw [← toList_escape, he] at hl
  exact h (String.toList_eq_nil_iff.1 (List.length_eq_zero_iff.1 (Nat.le_zero.1 hl)))

theorem unescapeText_escape (h : s ≠ "") : unescapeText (escape s) = .ok s := by
  have he : (escape s).isEmpty = false := by
    rw [Bool.eq_false_iff, ne_eq, String.isEmpty_iff]; exact escape_ne_empty h
  have hu := unescapeAll_escape s.toList [] (escape s).toList.length (by rw [toList_escape]; exact length_le_escape _)
  rw [← toList_escape] at hu
  simp [unescapeText, he, hu]

/-- **A name that is not empty reads back from its escaped form.** -/
theorem unescape_escape (h : s ≠ "") : unescape (escape s) = .ok s := by
  rw [unescape, unescapeText_escape h, blame]

theorem unescapeAll_eq_ok {fuel : Nat} {found text cs : List Char} (hf : text.length ≤ fuel)
    (h : unescapeAll fuel found text = .ok cs) : ∃ rest, cs = found.reverse ++ rest ∧ text = rest.flatMap escapeChar := by
  induction fuel generalizing found text with
  | zero =>
    obtain rfl := List.length_eq_zero_iff.1 (Nat.le_zero.1 hf)
    cases h
    exact ⟨[], by simp, rfl⟩
  | succ fuel ih =>
    cases text with
    | nil =>
      cases h
      exact ⟨[], by simp, rfl⟩
    | cons first text =>
      rw [unescapeAll] at h
      · split at h
        next => cases h
        next c rest hc =>
          have ht := unescapeChar_eq_ok hc
          have hpos := List.length_pos_iff.2 (escapeChar_ne_nil c)
          have hl := congrArg List.length ht
          rw [List.length_append] at hl
          obtain ⟨cs', rfl, hr⟩ := ih (by omega) h
          exact ⟨c :: cs', by simp, by rw [ht, hr, List.flatMap_cons]⟩
      · simp

theorem unescapeText_eq_ok (h : unescapeText text = .ok name) : name ≠ "" ∧ text = escape name := by
  rw [unescapeText] at h
  split at h
  · cases h
  next he =>
    split at h
    next cs hcs =>
      cases h
      obtain ⟨_, rfl, ht⟩ := unescapeAll_eq_ok (Nat.le_refl _) hcs
      have ht : text = escape (String.ofList cs) := String.toList_inj.1 (by simpa [toList_escape] using ht)
      refine ⟨fun hn => he ?_, ht⟩
      rw [ht, hn]
      rfl
    next => cases h

theorem unescape_eq_ok_iff : unescape text = .ok name ↔ name ≠ "" ∧ text = escape name := by
  constructor
  · intro h
    rw [unescape] at h
    cases ht : unescapeText text with
    | ok name' =>
      rw [ht] at h
      cases h
      exact unescapeText_eq_ok ht
    | error problem =>
      rw [ht] at h
      cases h
  · rintro ⟨hn, rfl⟩
    exact unescape_escape hn

theorem escape_injective : Function.Injective escape := by
  intro s t h
  by_cases hs : s = ""
  · subst hs
    by_contra ht
    exact escape_ne_empty (Ne.symm ht) h.symm
  · have ht : t ≠ "" := by
      rintro rfl
      exact escape_ne_empty hs h
    have hu := unescape_escape hs
    rw [h, unescape_escape ht] at hu
    exact (Except.ok.inj hu).symm

/-- **Escaping is a bijection from the names that are not empty to what is accepted as an escaped name.** -/
theorem unescape_bijective : (∀ text name, unescape text = .ok name ↔ name ≠ "" ∧ text = escape name) ∧
    Function.Injective escape ∧ ∀ text, text ∉ Set.range escape → ∃ f, unescape text = .error f := by
  refine ⟨fun _ _ => unescape_eq_ok_iff, escape_injective, fun text h => ?_⟩
  cases hu : unescape text with
  | ok name => exact absurd ⟨name, (unescape_eq_ok_iff.1 hu).2.symm⟩ h
  | error f => exact ⟨f, rfl⟩

/-! ## Classes -/

/-- No segment of a class name is empty. -/
def hasSegments (name : String) : Bool := (pieces '/' name).all fun s => s ≠ ""

theorem mapM_unescapeText (h : ∀ s ∈ segments, s ≠ "") : (segments.map escape).mapM unescapeText = .ok segments := by
  induction segments with
  | nil => rfl
  | cons s segments ih =>
    rw [List.map_cons, List.mapM_cons, unescapeText_escape (h s (by simp)), ih fun t ht => h t (by simp [ht])]
    rfl

theorem pieces_intercalate {separator : Char} (hs : segments ≠ []) (h : ∀ s ∈ segments, separator ∉ s.toList) :
    pieces separator (String.intercalate (String.singleton separator) segments) = segments := by
  rw [pieces, String.toList_intercalate, String.toList_singleton, List.splitOn_intercalate]
  · simp
  · intro l hl
    obtain ⟨s, hs', rfl⟩ := List.mem_map.1 hl
    exact h s hs'
  · simpa using hs

theorem intercalate_pieces (separator : Char) (text : String) :
    String.intercalate (String.singleton separator) (pieces separator text) = text := by
  apply String.toList_inj.1
  rw [String.toList_intercalate, String.toList_singleton, pieces, List.map_map]
  simp only [Function.comp_def, String.toList_ofList, List.map_id']
  exact List.intercalate_splitOn separator

theorem pieces_ne_nil (separator : Char) (text : String) : pieces separator text ≠ [] := by
  simp [pieces, List.splitOn_ne_nil]

theorem pieces_classToDocument (name : String) : pieces '.' (classToDocument name) = (pieces '/' name).map escape := by
  apply pieces_intercalate (by simpa using pieces_ne_nil '/' name)
  intro s hs
  obtain ⟨t, -, rfl⟩ := List.mem_map.1 hs
  exact not_mem_escape (by decide) (by decide) t

/-- **A class name without empty segments reads back from its document form.** -/
theorem classFromDocument_classToDocument (h : hasSegments name = true) :
    classFromDocument (classToDocument name) = .ok name := by
  have hs : ∀ s ∈ pieces '/' name, s ≠ "" := by simpa [hasSegments] using h
  rw [classFromDocument, pieces_classToDocument, mapM_unescapeText hs]
  exact congrArg Except.ok (intercalate_pieces '/' name)

/-! ## Members -/

theorem memberFromDocument_escape (h : name ≠ "") : memberFromDocument (escape name) = .ok (name, none) := by
  have hd : (escape name).toList.dropWhile (· ≠ '-') = [] := by
    rw [List.dropWhile_eq_nil_iff]
    intro c hc
    simpa using fun hc' : c = '-' => not_mem_escape (by decide) (by decide) name (hc' ▸ hc)
  rw [memberFromDocument, hd]
  simp only [unescape_escape h]
  rfl

theorem memberFromDocument_suffixed (h : name ≠ "") (h' : descriptor ≠ "") :
    memberFromDocument (escape name ++ "-" ++ escape descriptor) = .ok (name, some descriptor) := by
  have ht : (escape name ++ "-" ++ escape descriptor).toList = (escape name).toList
      ++ '-' :: (escape descriptor).toList := by
    simp
  have hn : ∀ c ∈ (escape name).toList, decide (c ≠ '-') = true := by
    intro c hc
    simpa using fun hc' : c = '-' => not_mem_escape (by decide) (by decide) name (hc' ▸ hc)
  have hd : (escape name ++ "-" ++ escape descriptor).toList.dropWhile (· ≠ '-') = '-' :: (escape descriptor).toList := by
    rw [ht, List.dropWhile_append_of_pos hn]; simp
  have htw : (escape name ++ "-" ++ escape descriptor).toList.takeWhile (· ≠ '-') = (escape name).toList := by
    rw [ht, List.takeWhile_append_of_pos hn]; simp
  rw [memberFromDocument, hd, htw]
  simp only [String.ofList_toList, unescape_escape h, unescape_escape h']
  rfl

def memberText (suffixed : Bool) (name descriptor : String) : String :=
  if suffixed then escape name ++ "-" ++ escape descriptor else escape name

/-- **The document name of a member gives back its name, and its descriptor if it has one.** -/
theorem memberFromDocument_memberText (suffixed : Bool) (h : name ≠ "") (h' : descriptor ≠ "") :
    memberFromDocument (memberText suffixed name descriptor) =
      .ok (name, if suffixed then some descriptor else none) := by
  cases suffixed
  · exact memberFromDocument_escape h
  · exact memberFromDocument_suffixed h h'

end ClassDoc.Name
