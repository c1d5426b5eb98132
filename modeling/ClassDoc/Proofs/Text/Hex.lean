/-
  Hexadecimal text reads back.
-/
import ClassDoc.Text.Hex
import Mathlib
namespace ClassDoc.Hex

/-! ## Digits -/

theorem value?_digit : ∀ n < 16, value? (digit n) = some n := by decide

theorem isUpperDigit_digit : ∀ n < 16, isUpperDigit (digit n) = true := by decide

theorem utf8Size_digit : ∀ n < 16, (digit n).utf8Size = 1 := by decide

@[simp] theorem length_fixed (w n : Nat) : (fixed w n).length = w := by
  induction w generalizing n with
  | zero => rfl
  | succ w ih => simp [fixed, ih]

theorem exists_of_mem_fixed {c : Char} {w n : Nat} (h : c ∈ fixed w n) : ∃ d < 16, c = digit d := by
  induction w generalizing n with
  | zero => simp [fixed] at h
  | succ w ih =>
    rcases List.mem_append.1 h with h | h
    · exact ih h
    · exact ⟨n % 16, by omega, List.mem_singleton.1 h⟩

theorem all_isUpperDigit_fixed (w n : Nat) : (fixed w n).all isUpperDigit = true := by
  rw [List.all_eq_true]
  intro c hc
  obtain ⟨d, hd, rfl⟩ := exists_of_mem_fixed hc
  exact isUpperDigit_digit d hd

/-! ## Numbers -/

theorem toNat?_fixed (w n : Nat) : toNat? (fixed w n) = some (n % 16 ^ w) := by
  induction w generalizing n with
  | zero => simp [fixed, toNat?, Nat.mod_one]
  | succ w ih =>
    have hd := value?_digit (n % 16) (Nat.mod_lt _ (by decide))
    have hs : n / 16 % 16 ^ w * 16 + n % 16 = n % 16 ^ (w + 1) := by
      rw [Nat.pow_succ', Nat.mod_mul]; ring
    unfold toNat? at ih ⊢
    simp only [fixed, List.foldl_append, ih, List.foldl_cons, List.foldl_nil, hd, ← hs]
    rfl

theorem toNat?_fixed_of_lt {w n : Nat} (h : n < 16 ^ w) : toNat? (fixed w n) = some n := by
  rw [toNat?_fixed, Nat.mod_eq_of_lt h]

theorem exists_digit {c : Char} (h : isUpperDigit c = true) : ∃ d < 16, c = digit d := by
  have hc : ∀ n < 71, isUpperDigit (Char.ofNat n) = true → ∃ d < 16, Char.ofNat n = digit d := by decide
  have hlt : c.toNat < 71 := by
    simp only [isUpperDigit, Char.le_def, UInt32.le_iff_toNat_le, decide_eq_true_eq] at h
    simp only [Char.reduceVal, UInt32.reduceToNat] at h
    have : c.toNat = c.val.toNat := rfl
    omega
  have := hc c.toNat hlt
  rw [Char.ofNat_toNat] at this
  exact this h

theorem fixed_of_toNat? {digits : List Char} (h : digits.all isUpperDigit = true) :
    ∃ n, toNat? digits = some n ∧ fixed digits.length n = digits := by
  induction digits using List.reverseRecOn with
  | nil => exact ⟨0, rfl, rfl⟩
  | append_singleton digits c ih =>
    rw [List.all_append, Bool.and_eq_true] at h
    obtain ⟨n, hn, hf⟩ := ih h.1
    obtain ⟨d, hd, rfl⟩ := exists_digit (by simpa using h.2)
    refine ⟨n * 16 + d, ?_, ?_⟩
    · unfold toNat? at hn ⊢
      rw [List.foldl_append, hn, List.foldl_cons, value?_digit d hd]
      rfl
    · rw [List.length_append, List.length_singleton, fixed, show (n * 16 + d) / 16 = n by omega, hf,
        show (n * 16 + d) % 16 = d by omega]

/-! ## Bytes -/

theorem toBytes?_go_fixed (bytes acc : List UInt8) :
    toBytes?.go acc (bytes.flatMap fun b => fixed 2 b.toNat) = some (acc.reverse ++ bytes) := by
  induction bytes generalizing acc with
  | nil => simp [toBytes?.go]
  | cons b bytes ih =>
    have hb : b.toNat < 256 := UInt8.toNat_lt b
    have hh := value?_digit (b.toNat / 16 % 16) (Nat.mod_lt _ (by decide))
    have hl := value?_digit (b.toNat % 16) (Nat.mod_lt _ (by decide))
    have hs : UInt8.ofNat (b.toNat / 16 % 16 * 16 + b.toNat % 16) = b := by
      rw [show b.toNat / 16 % 16 * 16 + b.toNat % 16 = b.toNat by omega, UInt8.ofNat_toNat]
    have hf : fixed 2 b.toNat = [digit (b.toNat / 16 % 16), digit (b.toNat % 16)] := rfl
    rw [List.flatMap_cons, hf]
    simp only [List.cons_append, List.nil_append, toBytes?.go, hh, hl, hs, ih, List.reverse_cons, List.append_assoc]

theorem toBytes?_ofBytes (bytes : List UInt8) : toBytes? (ofBytes bytes).toList = some bytes := by
  simp [toBytes?, ofBytes, toBytes?_go_fixed]

/-! ## Sizes -/

theorem utf8ByteSize_ofList {cs : List Char} (h : ∀ c ∈ cs, c.utf8Size = 1) :
    (String.ofList cs).utf8ByteSize = cs.length := by
  induction cs with
  | nil => rfl
  | cons c cs ih =>
    rw [show String.ofList (c :: cs) = String.singleton c ++ String.ofList cs by
      apply String.ext; simp, String.utf8ByteSize_append, String.utf8ByteSize_singleton, h c (by simp),
      ih fun d hd => h d (by simp [hd])]
    simp [Nat.add_comm]

theorem utf8ByteSize_fixed (w n : Nat) : (String.ofList (fixed w n)).utf8ByteSize = w := by
  rw [utf8ByteSize_ofList, length_fixed]
  intro c hc
  obtain ⟨d, hd, rfl⟩ := exists_of_mem_fixed hc
  exact utf8Size_digit d hd

theorem utf8ByteSize_ofBytes (bytes : List UInt8) : (ofBytes bytes).utf8ByteSize = 2 * bytes.length := by
  rw [ofBytes, utf8ByteSize_ofList]
  · simp [List.length_flatMap, List.map_const', Nat.mul_comm]
  · intro c hc
    obtain ⟨b, -, hb⟩ := List.mem_flatMap.1 hc
    obtain ⟨d, hd, rfl⟩ := exists_of_mem_fixed hb
    exact utf8Size_digit d hd

end ClassDoc.Hex
