/-
  Decimal text reads back, and nothing else reads as a number: labels and type paths have one text each.
-/
import ClassDoc.Model.TypePath
import ClassDoc.Proofs.Fault
import Mathlib
namespace ClassDoc

open List

/-! ## Numbers -/

theorem toList_toString (n : Nat) : (toString n).toList = Nat.toDigits 10 n := Nat.toList_repr

theorem all_isDigit_toDigits (n : Nat) : (Nat.toDigits 10 n).all Char.isDigit = true := by
  rw [all_eq_true]
  intro c hc
  exact Nat.isDigit_of_mem_toDigits (by decide) (by decide) hc

theorem head?_toDigits_ne_zero {n : Nat} (h : (Nat.toDigits 10 n).length > 1) : (Nat.toDigits 10 n).head? ≠ some '0' := by
  induction n using Nat.strongRecOn with
  | _ n ih =>
    by_cases hn : n < 10
    · rw [Nat.toDigits_of_lt_base hn] at h
      simp at h
    · rw [Nat.toDigits_of_base_le (by decide) (by omega), head?_append_of_ne_nil _ Nat.toDigits_ne_nil]
      by_cases hl : (Nat.toDigits 10 (n / 10)).length > 1
      · exact ih (n / 10) (by omega) hl
      · -- one digit in front of the last one, which is not zero
        have hlt : n / 10 < 10 := by
          by_contra hge
          have := (Nat.length_toDigits_le_iff (b := 10) (n := n / 10) (k := 1) (by decide) (by decide)).1 (by omega)
          omega
        rw [Nat.toDigits_of_lt_base hlt]
        intro h0
        have h0' : (n / 10).digitChar = '0' := by simpa using h0
        have : ∀ d < 10, Nat.digitChar d = '0' → d = 0 := by decide
        have := this _ hlt h0'
        omega

theorem digitChar_of_isDigit {c : Char} (h : c.isDigit = true) : c.toNat - 48 < 10 ∧ (c.toNat - 48).digitChar = c := by
  have hc : 48 ≤ c.toNat ∧ c.toNat ≤ 57 := by
    rw [Char.isDigit, Bool.and_eq_true, decide_eq_true_eq, decide_eq_true_eq] at h
    exact h
  have hd : ∀ d < 10, Nat.digitChar d = Char.ofNat (d + 48) := by decide
  refine ⟨by omega, ?_⟩
  rw [hd _ (by omega), Nat.sub_add_cancel hc.1, Char.ofNat_toNat]

namespace Label

theorem number_eq_ofDigitChars (digits : List Char) : number digits = Nat.ofDigitChars 10 digits 0 := by
  rw [Nat.ofDigitChars_eq_foldl, number]
  congr 1
  funext n c
  rw [Nat.mul_comm]
  rfl

theorem number_toDigits (n : Nat) : number (Nat.toDigits 10 n) = n := by
  rw [number_eq_ofDigitChars, Nat.ofDigitChars_ten_toDigits]

theorem isEmpty_toDigits (n : Nat) : (Nat.toDigits 10 n).isEmpty = false := by
  rw [isEmpty_eq_false_iff]
  exact Nat.toDigits_ne_nil

theorem leadingZero_toDigits (n : Nat) :
    (decide ((Nat.toDigits 10 n).length > 1) && (Nat.toDigits 10 n).head? == some '0') = false := by
  by_cases h : (Nat.toDigits 10 n).length > 1
  · have := head?_toDigits_ne_zero h
    simp_all
  · simp [h]

/-- **The name of a label reads back.** -/
theorem parse_text (l : Label) : parse l.text = .ok l := by
  have hl : l.text.toList = 'L' :: Nat.toDigits 10 l.id.toNat := by
    rw [text, String.toList_append, toList_toString]; rfl
  have hn : l.id.toNat < 0x100000000 := UInt32.toNat_lt l.id
  simp [parse, hl, all_isDigit_toDigits, number_toDigits, leadingZero_toDigits, hn, isEmpty_toDigits]

theorem number_append (digits : List Char) (c : Char) : number (digits ++ [c]) = number digits * 10 + (c.toNat - 48) := by
  simp [number]

theorem toDigits_number {digits : List Char} (hne : digits ≠ []) (hd : ∀ c ∈ digits, c.isDigit = true)
    (h0 : 1 < digits.length → digits.head? ≠ some '0') : Nat.toDigits 10 (number digits) = digits := by
  induction digits using reverseRecOn with
  | nil => exact absurd rfl hne
  | append_singleton digits c ih =>
    obtain ⟨hlt, hc⟩ := digitChar_of_isDigit (hd c (by simp))
    rw [number_append]
    rcases eq_or_ne digits [] with rfl | hne
    · rw [show number [] = 0 from rfl, Nat.zero_mul, Nat.zero_add, Nat.toDigits_of_lt_base hlt, hc, nil_append]
    · have hhead : digits.head? ≠ some '0' := by
        rw [head?_append_of_ne_nil _ hne, length_append] at h0
        exact h0 (Nat.lt_add_of_pos_left (length_pos_iff.2 hne))
      have ih := ih hne (fun d hm => hd d (by simp [hm])) fun _ => hhead
      have hpos : number digits ≠ 0 := by
        intro hz
        rw [hz] at ih
        rw [← ih] at hhead
        exact hhead rfl
      rw [Nat.toDigits_of_base_le (by decide) (by omega),
        show (number digits * 10 + (c.toNat - 48)) / 10 = number digits by omega,
        show (number digits * 10 + (c.toNat - 48)) % 10 = c.toNat - 48 by omega, ih, hc]

theorem parse_eq_ok_iff {l : Label} {s : String} : parse s = .ok l ↔ s = l.text := by
  refine ⟨fun h => ?_, fun h => h ▸ parse_text l⟩
  unfold parse at h
  split at h
  next digits hs =>
    split_ifs at h with hd h0 hn
    cases h
    simp only [Bool.or_eq_true, not_or, List.isEmpty_iff, Bool.not_eq_true', Bool.not_eq_false, all_eq_true] at hd
    rw [← String.toList_inj, hs, text, String.toList_append, toList_toString, UInt32.toNat_ofNat_of_lt' hn,
      toDigits_number hd.1 hd.2 (by simpa using h0)]
    rfl
  next => cases h

end Label

/-! ## Type paths -/

namespace TypePath

theorem indexOf_toDigits (i : UInt8) : indexOf (Nat.toDigits 10 i.toNat) = .ok i := by
  have hi : i.toNat < 256 := UInt8.toNat_lt i
  simp [indexOf, all_isDigit_toDigits, Label.leadingZero_toDigits, Label.number_toDigits, hi]

theorem toDigits_ne_semicolon {n : Nat} {c : Char} (h : c ∈ Nat.toDigits 10 n) : (c != ';') = true := by
  have hd := Nat.isDigit_of_mem_toDigits (by decide) (by decide) h
  rw [bne_iff_ne]
  rintro rfl
  exact absurd hd (by decide)

variable (path : List TypePathStep) (step : TypePathStep)

theorem takeStep_stepText (rest : List Char) : takeStep ((stepText step).toList ++ rest) = .ok (step, rest) := by
  cases step with
  | array => rfl
  | nested => rfl
  | wildcard => rfl
  | typeArgument i =>
    have ht : (stepText (.typeArgument i)).toList = Nat.toDigits 10 i.toNat ++ [';'] := by
      rw [stepText, String.toList_append, toList_toString]; rfl
    obtain ⟨d, ds, hd⟩ := exists_cons_of_ne_nil (Nat.toDigits_ne_nil (n := i.toNat) (b := 10))
    have hdig : d.isDigit = true := Nat.isDigit_of_mem_toDigits (by decide) (by decide) (hd ▸ mem_cons_self)
    have hne : ∀ x, x.isDigit = false → d ≠ x := by rintro x hx rfl; rw [hx] at hdig; cases hdig
    have htw : ((Nat.toDigits 10 i.toNat ++ [';']) ++ rest).takeWhile (· != ';') = Nat.toDigits 10 i.toNat := by
      rw [append_assoc, takeWhile_append_of_pos fun c => toDigits_ne_semicolon]
      simp
    have hdw : ((Nat.toDigits 10 i.toNat ++ [';']) ++ rest).dropWhile (· != ';') = ';' :: rest := by
      rw [append_assoc, dropWhile_append_of_pos fun c => toDigits_ne_semicolon]
      simp
    rw [ht, takeStep]
    · rw [htw, hdw, indexOf_toDigits]
      simp [hd, hdig]
    all_goals
      rintro rest' h
      rw [hd] at h
      simp only [cons_append, List.cons.injEq] at h
      exact hne _ (by decide) h.1

theorem stepText_ne_nil : (stepText step).toList ≠ [] := by
  cases step <;> simp [stepText]

theorem takeSteps_format (found : List TypePathStep) (fuel : Nat) (h : path.length ≤ fuel) :
    takeSteps fuel found (path.flatMap fun step => (stepText step).toList) = .ok (found.reverse ++ path) := by
  induction path generalizing found fuel with
  | nil => cases fuel <;> simp [takeSteps]
  | cons step path ih =>
    obtain ⟨fuel, rfl⟩ : ∃ f, fuel = f + 1 := ⟨fuel - 1, by simp at h; omega⟩
    have hs := takeStep_stepText step (path.flatMap fun step => (stepText step).toList)
    obtain ⟨c, cs, hc⟩ := exists_cons_of_ne_nil (stepText_ne_nil step)
    rw [flatMap_cons]
    rw [hc, cons_append] at hs ⊢
    rw [takeSteps, hs]
    · simpa using ih (step :: found) fuel (by simpa using h)
    · simp

theorem toList_format : (format path).toList = path.flatMap fun step => (stepText step).toList := by
  rw [format]
  induction path with
  | nil => simp
  | cons step path ih => simp [ih]

/-- **The text of a type path reads back.** -/
theorem parse_format : parse (format path) = .ok path := by
  have hl : path.length ≤ (format path).toList.length := by
    rw [toList_format]
    induction path with
    | nil => simp
    | cons step path ih =>
      have := length_pos_iff.2 (stepText_ne_nil step)
      simp only [flatMap_cons, length_append, length_cons]
      omega
  have := takeSteps_format path [] _ hl
  rw [parse]
  nth_rewrite 2 [toList_format]
  rw [this]
  rfl

theorem eq_toDigits_of_indexOf {digits : List Char} {i : UInt8} (hne : digits ≠ []) (h : indexOf digits = .ok i) :
    digits = Nat.toDigits 10 i.toNat := by
  unfold indexOf at h
  split_ifs at h with h0 hn
  cases h
  simp only [Bool.or_eq_true, not_or, Bool.not_eq_true', Bool.not_eq_false, all_eq_true] at h0
  rw [UInt8.toNat_ofNat_of_lt' hn, Label.toDigits_number hne h0.1 (by simpa using h0.2)]

theorem eq_append_of_takeStep {text rest : List Char} {step : TypePathStep} (h : takeStep text = .ok (step, rest)) :
    text = (stepText step).toList ++ rest := by
  unfold takeStep at h
  split at h
  · cases h
    rfl
  · cases h
    rfl
  · cases h
    rfl
  · split_ifs at h with hd
    split at h
    next => cases h
    next c rest' hrest =>
      obtain ⟨i, hi, h⟩ := bind_eq_ok.1 h
      cases h
      -- the digits end at the first semicolon
      have hc : c = ';' := by simpa [hrest] using List.head?_dropWhile_not (· != ';') text
      have hne : text.takeWhile (· != ';') ≠ [] := by
        cases text with
        | nil => simp at hrest
        | cons d ds =>
          have hd : (d != ';') = true := by
            rw [bne_iff_ne]
            rintro rfl
            exact hd rfl
          simp [hd]
      rw [stepText, String.toList_append, toList_toString, ← eq_toDigits_of_indexOf hne hi, append_assoc]
      calc text = text.takeWhile (· != ';') ++ text.dropWhile (· != ';') := takeWhile_append_dropWhile.symm
        _ = _ := by rw [hrest, hc]; rfl

theorem eq_of_takeSteps {fuel : Nat} {found path : List TypePathStep} {text : List Char}
    (h : takeSteps fuel found text = .ok path) :
    ∃ new, path = found.reverse ++ new ∧ text = new.flatMap fun step => (stepText step).toList := by
  fun_induction takeSteps fuel found text with
  | case1 fuel found =>
    cases h
    exact ⟨[], by simp, rfl⟩
  | case2 => cases h
  | case3 => cases h
  | case4 fuel found text _ step rest ht ih =>
    obtain ⟨new, rfl, rfl⟩ := ih h
    exact ⟨step :: new, by simp, eq_append_of_takeStep ht⟩

theorem parse_eq_ok_iff {path : List TypePathStep} {s : String} : parse s = .ok path ↔ format path = s := by
  refine ⟨fun h => ?_, fun h => h ▸ parse_format path⟩
  unfold parse at h
  split at h
  next p hp =>
    cases h
    obtain ⟨new, rfl, ht⟩ := eq_of_takeSteps hp
    rw [← String.toList_inj, toList_format, ht]
  next => cases h

end TypePath

/-- **Labels and type paths have exactly one text each.** -/
theorem texts_canonical : (∀ (l : Label) s, Label.parse s = .ok l ↔ s = l.text) ∧
    ∀ (path : List TypePathStep) s, TypePath.parse s = .ok path ↔ TypePath.format path = s :=
  ⟨fun _ _ => Label.parse_eq_ok_iff, fun _ _ => TypePath.parse_eq_ok_iff⟩

end ClassDoc
