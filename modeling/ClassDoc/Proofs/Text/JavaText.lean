/-
  Text of class files reads back.
-/
import ClassDoc.Text.JavaText
import Mathlib
namespace ClassDoc.JavaText

/-! ## One unit -/

def isPlainUnit (u : UInt16) : Bool := u != 0 && !(isHigh u || isLow u)

theorem toNat_lt (u : UInt16) : u.toNat < 0x10000 := UInt16.toNat_lt u

theorem isSurrogate_iff (u : UInt16) : (isHigh u || isLow u) = true ↔ 0xD800 ≤ u.toNat ∧ u.toNat ≤ 0xDFFF := by
  simp only [isHigh, isLow, Bool.or_eq_true, Bool.and_eq_true, decide_eq_true_eq, UInt16.le_iff_toNat_le]
  simp only [UInt16.reduceToNat]
  omega

theorem encodeUnit_cases (u : UInt16) :
    (u.toNat ≠ 0 ∧ u.toNat < 0x80 ∧ encodeUnit u = [UInt8.ofNat u.toNat]) ∨
    (u.toNat = 0 ∧ encodeUnit u = [0xC0, 0x80]) ∨
    (0x80 ≤ u.toNat ∧ u.toNat < 0x800 ∧
      encodeUnit u = [UInt8.ofNat (0xC0 + u.toNat / 0x40), UInt8.ofNat (0x80 + u.toNat % 0x40)]) ∨
    (0x800 ≤ u.toNat ∧ encodeUnit u = [UInt8.ofNat (0xE0 + u.toNat / 0x1000),
      UInt8.ofNat (0x80 + u.toNat / 0x40 % 0x40), UInt8.ofNat (0x80 + u.toNat % 0x40)]) := by
  unfold encodeUnit
  by_cases h0 : u.toNat = 0
  · right; left; simp [h0]
  by_cases h1 : u.toNat < 0x80
  · left; simp [h0, h1]
  by_cases h2 : u.toNat < 0x800
  · right; right; left; simp [h1, h2]; omega
  · right; right; right; simp [h1, h2]; omega

theorem encodeUnit_ne_nil (u : UInt16) : encodeUnit u ≠ [] := by
  rcases encodeUnit_cases u with ⟨-, -, h⟩ | ⟨-, h⟩ | ⟨-, -, h⟩ | ⟨-, h⟩ <;> simp [h]

variable {n : Nat} {u : UInt16}

theorem toNat_ofNat8 (h : n < 256) : (UInt8.ofNat n).toNat = n := by
  simp [UInt8.toNat_ofNat', Nat.mod_eq_of_lt h]

theorem toUInt16_ofNat8 (h : u.toNat < 256) : (UInt8.ofNat u.toNat).toUInt16 = u := by
  apply UInt16.toNat_inj.1
  rw [UInt8.toNat_toUInt16, toNat_ofNat8 h]

theorem isTail_ofNat (h : n < 0x40) : isTail (UInt8.ofNat (0x80 + n)) = true := by
  simp only [isTail, Bool.and_eq_true, decide_eq_true_eq, UInt8.le_iff_toNat_le, toNat_ofNat8 (show 0x80 + n < 256 by omega),
    UInt8.reduceToNat]
  omega

theorem isTwo_unit (h : 0x80 ≤ n) (h' : n < 0x800) :
    isTwo (UInt8.ofNat (0xC0 + n / 0x40)) (UInt8.ofNat (0x80 + n % 0x40)) = true := by
  simp only [isTwo, isTail_ofNat (show n % 0x40 < 0x40 by omega), Bool.and_true, Bool.and_eq_true, decide_eq_true_eq,
    UInt8.le_iff_toNat_le, toNat_ofNat8 (show 0xC0 + n / 0x40 < 256 by omega), UInt8.reduceToNat]
  omega

theorem unit2_unit (h : u.toNat < 0x800) :
    unit2 (UInt8.ofNat (0xC0 + u.toNat / 0x40)) (UInt8.ofNat (0x80 + u.toNat % 0x40)) = u := by
  rw [unit2, toNat_ofNat8 (show 0xC0 + u.toNat / 0x40 < 256 by omega),
    toNat_ofNat8 (show 0x80 + u.toNat % 0x40 < 256 by omega),
    show (0xC0 + u.toNat / 0x40 - 0xC0) * 0x40 + (0x80 + u.toNat % 0x40 - 0x80) = u.toNat by omega, UInt16.ofNat_toNat]

theorem isThree_unit (h : 0x800 ≤ n) (h' : n < 0x10000) :
    isThree (UInt8.ofNat (0xE0 + n / 0x1000)) (UInt8.ofNat (0x80 + n / 0x40 % 0x40))
      (UInt8.ofNat (0x80 + n % 0x40)) = true := by
  have ha := toNat_ofNat8 (show 0xE0 + n / 0x1000 < 256 by omega)
  have hb := toNat_ofNat8 (show 0x80 + n / 0x40 % 0x40 < 256 by omega)
  simp only [isThree, isTail_ofNat (show n % 0x40 < 0x40 by omega), isTail_ofNat (show n / 0x40 % 0x40 < 0x40 by omega),
    Bool.and_true, Bool.and_eq_true, Bool.or_eq_true, decide_eq_true_eq, bne_iff_ne, ne_eq, ← UInt8.toNat_inj,
    UInt8.le_iff_toNat_le, ha, hb, UInt8.reduceToNat]
  omega

theorem unit3_unit (u : UInt16) :
    unit3 (UInt8.ofNat (0xE0 + u.toNat / 0x1000)) (UInt8.ofNat (0x80 + u.toNat / 0x40 % 0x40))
      (UInt8.ofNat (0x80 + u.toNat % 0x40)) = u := by
  have hu := toNat_lt u
  rw [unit3, toNat_ofNat8 (show 0xE0 + u.toNat / 0x1000 < 256 by omega),
    toNat_ofNat8 (show 0x80 + u.toNat / 0x40 % 0x40 < 256 by omega),
    toNat_ofNat8 (show 0x80 + u.toNat % 0x40 < 256 by omega),
    show (0xE0 + u.toNat / 0x1000 - 0xE0) * 0x1000 + (0x80 + u.toNat / 0x40 % 0x40 - 0x80) * 0x40
      + (0x80 + u.toNat % 0x40 - 0x80) = u.toNat by omega, UInt16.ofNat_toNat]

theorem lt_ofNat8 {k : Nat} (hn : n < 256) (hk : k < 256) : (UInt8.ofNat n < UInt8.ofNat k) ↔ n < k := by
  rw [UInt8.lt_iff_toNat_lt, toNat_ofNat8 hn, toNat_ofNat8 hk]

theorem ofNat8_lt (hn : n < 256) : (UInt8.ofNat n < 0x80) ↔ n < 0x80 := lt_ofNat8 hn (by decide)

theorem isTwo_ofNat_of_le (h : 0xE0 ≤ n) (h' : n < 256) (b : UInt8) : isTwo (UInt8.ofNat n) b = false := by
  rw [Bool.eq_false_iff]
  simp only [isTwo, ne_eq, Bool.and_eq_true, decide_eq_true_eq, UInt8.le_iff_toNat_le, toNat_ofNat8 h', UInt8.reduceToNat]
  omega

theorem ofNat8_high (h : 0xC0 < n) (h' : n < 256) : ¬ UInt8.ofNat n < 0x80 ∧ UInt8.ofNat n ≠ 0xC0 := by
  rw [ofNat8_lt h', ne_eq, ← UInt8.toNat_inj, toNat_ofNat8 h']
  exact ⟨by omega, by simp only [UInt8.reduceToNat]; omega⟩

theorem ofNat8_low (h0 : u.toNat ≠ 0) (h1 : u.toNat < 0x80) :
    UInt8.ofNat u.toNat ≠ 0 ∧ UInt8.ofNat u.toNat < 0x80 ∧ (UInt8.ofNat u.toNat).toUInt16 = u := by
  refine ⟨?_, (ofNat8_lt (by omega)).2 h1, toUInt16_ofNat8 (by omega)⟩
  rw [ne_eq, ← UInt8.toNat_inj, toNat_ofNat8 (by omega)]
  exact h0

theorem encodeUnit_bytes (u : UInt16) :
    (∃ a, encodeUnit u = [a] ∧ u ≠ 0 ∧ u.toNat < 0x800 ∧ a ≠ 0 ∧ a < 0x80 ∧ a.toUInt16 = u) ∨
    (encodeUnit u = [0xC0, 0x80] ∧ u = 0) ∨
    (∃ a b, encodeUnit u = [a, b] ∧ u ≠ 0 ∧ u.toNat < 0x800 ∧ (¬ a < 0x80 ∧ a ≠ 0xC0) ∧ isTwo a b = true ∧ unit2 a b = u) ∨
    ∃ a b c, encodeUnit u = [a, b, c] ∧ u ≠ 0 ∧ (¬ a < 0x80 ∧ a ≠ 0xC0) ∧ isTwo a b = false ∧ isThree a b c = true ∧
      unit3 a b c = u := by
  have hu := toNat_lt u
  have hz : u.toNat ≠ 0 → u ≠ 0 := fun h h' => h (by rw [h']; rfl)
  rcases encodeUnit_cases u with ⟨h0, h1, he⟩ | ⟨h0, he⟩ | ⟨h1, h2, he⟩ | ⟨h1, he⟩
  · exact .inl ⟨_, he, hz h0, by omega, ofNat8_low h0 h1⟩
  · exact .inr (.inl ⟨he, UInt16.toNat_inj.1 h0⟩)
  · exact .inr (.inr (.inl ⟨_, _, he, hz (by omega), h2, ofNat8_high (by omega) (by omega), isTwo_unit h1 h2,
      unit2_unit h2⟩))
  · exact .inr (.inr (.inr ⟨_, _, _, he, hz (by omega), ofNat8_high (by omega) (by omega),
      isTwo_ofNat_of_le (by omega) (by omega) _, isThree_unit h1 hu, unit3_unit u⟩))

theorem modifiedStep_encodeUnit (u : UInt16) (rest : List UInt8) :
    modifiedStep (encodeUnit u ++ rest) = some (u, rest) := by
  rcases encodeUnit_bytes u with ⟨a, he, -, -, hz, hlt, hv⟩ | ⟨he, rfl⟩ | ⟨a, b, he, -, -, ⟨hlt, hc⟩, h2, hv⟩ |
    ⟨a, b, c, he, -, ⟨hlt, hc⟩, h2, h3, hv⟩ <;> rw [he]
  · simp [modifiedStep, hz, hlt, hv]
  · rfl
  · simp [modifiedStep, hlt, hc, h2, hv]
  · simp [modifiedStep, hlt, hc, h2, h3, hv]

theorem utf8Step_encodeUnit (u : UInt16) (rest : List UInt8) :
    utf8Step (encodeUnit u ++ rest) = if isPlainUnit u then some (charOf u, rest) else none := by
  have hplain : u ≠ 0 → u.toNat < 0x800 → isPlainUnit u = true := fun hz h => by
    have hs : (isHigh u || isLow u) = false := by
      rw [Bool.eq_false_iff, ne_eq, isSurrogate_iff]
      omega
    simp [isPlainUnit, hs, hz]
  rcases encodeUnit_bytes u with ⟨a, he, hz, hu, -, hlt, hv⟩ | ⟨he, rfl⟩ | ⟨a, b, he, hz, hu, ⟨hlt, -⟩, h2, hv⟩ |
    ⟨a, b, c, he, hz, ⟨hlt, -⟩, h2, h3, hv⟩ <;> rw [he]
  · simp [utf8Step, hlt, hv, hplain hz hu]
  · rcases rest with - | ⟨c, - | ⟨d, rest⟩⟩ <;> simp [utf8Step, isPlainUnit, isTwo, isThree, isFour]
  · simp [utf8Step, hlt, h2, hv, hplain hz hu]
  · have hp : isPlainUnit u = !(isHigh u || isLow u) := by simp [isPlainUnit, hz]
    simp only [List.cons_append, List.nil_append, utf8Step, hlt, h2, h3, hv, hp, if_false, if_true, Bool.false_eq_true]
    cases isHigh u || isLow u <;> simp

/-! ## All units -/

theorem drain_encodeUnit {α : Type} {step : List UInt8 → Option (α × List UInt8)} {p : UInt16 → Bool} {f : UInt16 → α}
    (hstep : ∀ u rest, step (encodeUnit u ++ rest) = if p u then some (f u, rest) else none) (units : List UInt16)
    (acc : List α) (fuel : Nat) (h : units.length ≤ fuel) : drain step fuel acc (units.flatMap encodeUnit) =
      if units.all p then some (acc.reverse ++ units.map f) else none := by
  induction units generalizing acc fuel with
  | nil => cases fuel <;> simp [drain]
  | cons u units ih =>
    obtain ⟨fuel, rfl⟩ : ∃ f, fuel = f + 1 := ⟨fuel - 1, by simp at h; omega⟩
    obtain ⟨b, bs, hb⟩ := List.exists_cons_of_ne_nil (encodeUnit_ne_nil u)
    have hstep := hstep u (units.flatMap encodeUnit)
    rw [hb, List.cons_append] at hstep
    rw [List.flatMap_cons, hb, List.cons_append, drain, hstep]
    by_cases hp : p u
    · simp [hp, ih (f u :: acc) fuel (by simpa using h)]
    · simp [hp]

theorem length_le_encode (units : List UInt16) : units.length ≤ (units.flatMap encodeUnit).length := by
  induction units with
  | nil => simp
  | cons u units ih =>
    have := List.length_pos_iff.2 (encodeUnit_ne_nil u)
    simp only [List.flatMap_cons, List.length_append, List.length_cons]
    omega

/-! ## Characters -/

theorem toNat_charOf (h : isPlainUnit u = true) : (charOf u).toNat = u.toNat := by
  have hu := toNat_lt u
  have hs : ¬ (0xD800 ≤ u.toNat ∧ u.toNat ≤ 0xDFFF) := by
    rw [← isSurrogate_iff]; simp_all [isPlainUnit]
  rw [charOf, Char.toNat_ofNat, if_pos]
  rcases Nat.lt_or_ge u.toNat 0xD800 with h | h
  · exact Or.inl h
  · exact Or.inr ⟨by omega, by omega⟩

theorem unitsOf_charOf (h : isPlainUnit u = true) : unitsOf (charOf u) = [u] := by
  rw [unitsOf, toNat_charOf h, if_pos (toNat_lt u), UInt16.ofNat_toNat]

theorem flatMap_unitsOf_charOf {units : List UInt16} (h : units.all isPlainUnit = true) :
    (units.map charOf).flatMap unitsOf = units := by
  induction units with
  | nil => rfl
  | cons u units ih =>
    simp only [List.all_cons, Bool.and_eq_true] at h
    simp [unitsOf_charOf h.1, ih h.2]

/-- **Modified UTF-8 reads back as the text it was made of.** -/
theorem decode?_encode (t : JavaText) : decode? t.encode = some t := by
  have hl := length_le_encode t.units
  have hu : decodeUtf8? t.encode = if t.units.all isPlainUnit then some (t.units.map charOf) else none :=
    drain_encodeUnit utf8Step_encodeUnit t.units [] _ hl
  have hm : decodeModified? t.encode = some t.units := by
    have hd := drain_encodeUnit (p := fun _ => true) (f := fun u => u) modifiedStep_encodeUnit t.units [] _ hl
    rwa [List.all_eq_true.2 fun _ _ => rfl, if_pos rfl, List.map_id'] at hd
  unfold decode?
  rw [hu, hm]
  by_cases h : t.units.all isPlainUnit = true
  · simp [h, flatMap_unitsOf_charOf h]
  · simp [h]

/-! ## Texts without lone surrogates -/

theorem toNat_ofNat16 (h : n < 0x10000) : (UInt16.ofNat n).toNat = n := by
  rw [UInt16.toNat_ofNat', Nat.mod_eq_of_lt h]

theorem isHigh_iff (u : UInt16) : isHigh u = true ↔ 0xD800 ≤ u.toNat ∧ u.toNat ≤ 0xDBFF := by
  simp only [isHigh, Bool.and_eq_true, decide_eq_true_eq, UInt16.le_iff_toNat_le, UInt16.reduceToNat]

theorem isLow_iff (u : UInt16) : isLow u = true ↔ 0xDC00 ≤ u.toNat ∧ u.toNat ≤ 0xDFFF := by
  simp only [isLow, Bool.and_eq_true, decide_eq_true_eq, UInt16.le_iff_toNat_le, UInt16.reduceToNat]

theorem piecesOf_go_unitsOf (c : Char) (acc : List Piece) (rest : List UInt16) :
    piecesOf.go acc (unitsOf c ++ rest) = piecesOf.go (.char c :: acc) rest := by
  have hv := c.valid
  by_cases h : c.toNat < 0x10000
  · -- a character up to U+FFFF is no surrogate
    have hu := toNat_ofNat16 h
    have hs : ¬ (0xD800 ≤ c.toNat ∧ c.toNat ≤ 0xDFFF) := by
      rintro ⟨h1, h2⟩
      rcases hv with hv | ⟨hv, -⟩
      · exact absurd (show c.toNat < 0xD800 from hv) (by omega)
      · exact absurd (show 0xDFFF < c.toNat from hv) (by omega)
    have hhl : (isHigh (UInt16.ofNat c.toNat) || isLow (UInt16.ofNat c.toNat)) = false := by
      rw [Bool.eq_false_iff, ne_eq, isSurrogate_iff, hu]; exact hs
    obtain ⟨hh, hl⟩ := Bool.or_eq_false_iff.1 hhl
    have hc : Char.ofNat (UInt16.ofNat c.toNat).toNat = c := by rw [hu, Char.ofNat_toNat]
    rw [unitsOf, if_pos h]
    generalize UInt16.ofNat c.toNat = u at *
    cases rest with
    | nil => simp [piecesOf.go, hh, hl, hc]
    | cons v rest => simp [piecesOf.go, hh, hl, hc]
  · -- above, the two units are a surrogate pair
    have hlt : c.toNat < 0x110000 := by
      rcases hv with hv | ⟨-, hv⟩
      · exact Nat.lt_trans (show c.toNat < 0xD800 from hv) (by decide)
      · exact hv
    have h1 := toNat_ofNat16 (n := 0xD800 + (c.toNat - 0x10000) / 0x400) (by omega)
    have h2 := toNat_ofNat16 (n := 0xDC00 + (c.toNat - 0x10000) % 0x400) (by omega)
    have hh : isHigh (UInt16.ofNat (0xD800 + (c.toNat - 0x10000) / 0x400)) = true := by
      rw [isHigh_iff, h1]; omega
    have hl : isLow (UInt16.ofNat (0xDC00 + (c.toNat - 0x10000) % 0x400)) = true := by
      rw [isLow_iff, h2]; omega
    have hj : join (UInt16.ofNat (0xD800 + (c.toNat - 0x10000) / 0x400))
        (UInt16.ofNat (0xDC00 + (c.toNat - 0x10000) % 0x400)) = c := by
      rw [join, h1, h2, show 0x10000 + (0xD800 + (c.toNat - 0x10000) / 0x400 - 0xD800) * 0x400
        + (0xDC00 + (c.toNat - 0x10000) % 0x400 - 0xDC00) = c.toNat by omega, Char.ofNat_toNat]
    simp only [unitsOf, if_neg h, List.cons_append, List.nil_append, piecesOf.go, hh, hl, hj, Bool.and_self, if_true]

theorem piecesOf_go_flatMap (cs : List Char) (acc : List Piece) :
    piecesOf.go acc (cs.flatMap unitsOf) = acc.reverse ++ cs.map Piece.char := by
  induction cs generalizing acc with
  | nil => simp [piecesOf.go]
  | cons c cs ih => simp [piecesOf_go_unitsOf, ih]

/-- **The units of a text read back as the text.** -/
theorem toString?_ofString (s : String) : (ofString s).toString? = some s := by
  have hp : (ofString s).pieces = s.toList.map Piece.char := piecesOf_go_flatMap s.toList []
  have hm : ∀ cs : List Char, (cs.map Piece.char).mapM Piece.char? = some cs := by
    intro cs
    induction cs with
    | nil => rfl
    | cons c cs ih => simp [Piece.char?, ih]
  simp [toString?, hp, hm]

theorem ofString_injective {s t : String} (h : ofString s = ofString t) : s = t := by
  have := congrArg toString? h
  simpa [toString?_ofString] using this

def Piece.units : Piece → List UInt16
  | .char c => unitsOf c
  | .lone u => [u]

theorem unitsOf_ofNat (h : (isHigh u || isLow u) = false) : unitsOf (Char.ofNat u.toNat) = [u] := by
  have hu := toNat_lt u
  have hs : ¬ (0xD800 ≤ u.toNat ∧ u.toNat ≤ 0xDFFF) := by rw [← isSurrogate_iff, h]; decide
  have hn : (Char.ofNat u.toNat).toNat = u.toNat := by
    rw [Char.toNat_ofNat, if_pos]
    rcases Nat.lt_or_ge u.toNat 0xD800 with h | h
    · exact Or.inl h
    · exact Or.inr ⟨by omega, by omega⟩
  rw [unitsOf, hn, if_pos hu, UInt16.ofNat_toNat]

theorem unitsOf_join {v : UInt16} (hu : isHigh u = true) (hv : isLow v = true) : unitsOf (join u v) = [u, v] := by
  rw [isHigh_iff] at hu
  rw [isLow_iff] at hv
  have hn : (join u v).toNat = 0x10000 + (u.toNat - 0xD800) * 0x400 + (v.toNat - 0xDC00) := by
    rw [join, Char.toNat_ofNat, if_pos]
    exact Or.inr ⟨by omega, by omega⟩
  have h1 : 0xD800 + ((join u v).toNat - 0x10000) / 0x400 = u.toNat := by omega
  have h2 : 0xDC00 + ((join u v).toNat - 0x10000) % 0x400 = v.toNat := by omega
  rw [unitsOf, if_neg (by omega)]
  simp only [h1, h2, UInt16.ofNat_toNat]

theorem units_piecesOf_go (acc : List Piece) (units : List UInt16) :
    (piecesOf.go acc units).flatMap Piece.units = acc.reverse.flatMap Piece.units ++ units := by
  fun_induction piecesOf.go acc units with
  | case1 acc => simp
  | case2 acc u h => simp [Piece.units]
  | case3 acc u h => simp [Piece.units, unitsOf_ofNat (Bool.eq_false_iff.2 h)]
  | case4 acc u v rest h ih =>
    rw [Bool.and_eq_true] at h
    simp [ih, Piece.units, unitsOf_join h.1 h.2]
  | case5 acc u v rest _ h ih => simp [ih, Piece.units]
  | case6 acc u v rest _ h ih => simp [ih, Piece.units, unitsOf_ofNat (Bool.eq_false_iff.2 h)]

/-- **A text without lone surrogates has the units it was read from.** -/
theorem ofString_of_toString? {t : JavaText} {s : String} (h : t.toString? = some s) : ofString s = t := by
  obtain ⟨cs, hcs, rfl⟩ := Option.map_eq_some_iff.1 h
  have hp : ∀ (ps : List Piece) cs, ps.mapM Piece.char? = some cs → ps.flatMap Piece.units = cs.flatMap unitsOf := by
    intro ps
    induction ps with
    | nil => intro cs h; cases h; rfl
    | cons p ps ih =>
      intro cs h
      rw [List.mapM_cons] at h
      cases p with
      | lone u => simp [Piece.char?] at h
      | char c =>
        simp only [Piece.char?, Option.bind_eq_bind, Option.bind_some, Option.bind_eq_some_iff, Option.pure_def,
          Option.some.injEq] at h
        obtain ⟨cs', h', rfl⟩ := h
        simp [ih cs' h', Piece.units]
  rw [ofString, String.toList_ofList, ← hp _ _ hcs, pieces, piecesOf, units_piecesOf_go]
  rfl

end ClassDoc.JavaText
