/-
  How long the texts of a class file can be.
-/
import ClassDoc.Proofs.ClassFile.Reading
namespace ClassDoc

open List

/-! ## Texts -/

namespace JavaText

theorem length_of_drain {α : Type} {step : List UInt8 → Option (α × List UInt8)} {fuel : Nat} {acc items : List α}
    {bytes : List UInt8} (h : drain step fuel acc bytes = some items) : items.length ≤ acc.length + fuel := by
  induction fuel generalizing acc bytes with
  | zero =>
    cases bytes with
    | nil =>
      cases h
      simp
    | cons b bytes => cases h
  | succ fuel ih =>
    cases bytes with
    | nil =>
      cases h
      simp
    | cons b bytes =>
      rw [drain] at h
      split at h
      · have := ih h
        rw [length_cons] at this
        omega
      · cases h

theorem length_unitsOf (c : Char) : 1 ≤ (unitsOf c).length ∧ (unitsOf c).length ≤ 2 := by
  rw [unitsOf]
  split <;> simp

theorem length_of_decode? {bytes : List UInt8} {t : JavaText} (h : decode? bytes = some t) :
    t.units.length ≤ 2 * bytes.length := by
  rw [decode?] at h
  split at h
  next cs hcs =>
    cases h
    have hl : cs.length ≤ bytes.length := by simpa using length_of_drain hcs
    have hs : ((cs.map fun c => (unitsOf c).length).sum) ≤ (cs.map fun _ => 2).sum :=
      sum_le_sum fun c _ => (length_unitsOf c).2
    rw [length_flatMap]
    simp only [map_const', sum_replicate, smul_eq_mul] at hs
    omega
  next =>
    obtain ⟨units, hu, rfl⟩ := Option.map_eq_some_iff.1 h
    have hl : units.length ≤ bytes.length := by simpa using length_of_drain hu
    simp only
    omega

theorem length_of_toString? {t : JavaText} {s : String} (h : t.toString? = some s) : s.length ≤ t.units.length := by
  rw [← ofString_of_toString? h, ofString, length_flatMap]
  have hs : (s.toList.map fun _ => 1).sum ≤ (s.toList.map fun c => (unitsOf c).length).sum :=
    sum_le_sum fun c _ => (length_unitsOf c).1
  simpa [← String.length_toList] using hs

end JavaText

/-! ## The pool -/

def PoolView.Short (pool : PoolView) : Prop := ∀ t, some (.utf8 t) ∈ pool.entries → t.units.length < 2 ^ 17

def PoolEntry.IsShort (e : PoolEntry) : Prop := ∀ t, e = .utf8 t → t.units.length < 2 ^ 17

theorem PoolEntry.only_decode (index : Nat) : Decode.Only (PoolEntry.decode index) PoolEntry.IsShort := by
  refine .any_bind fun tag => ?_
  split
  · refine .any_bind fun length => ?_
    intro i e j h
    obtain ⟨bytes, k, hb, h⟩ := decode_bind_eq_ok.1 h
    obtain ⟨t, l, ht, h⟩ := decode_bind_eq_ok.1 h
    cases h
    rintro t' ⟨⟩
    have hd : JavaText.decode? bytes = some t := by
      rw [decodeText] at ht
      cases hd : JavaText.decode? bytes with
      | none =>
        rw [hd] at ht
        cases ht
      | some t' =>
        rw [hd] at ht
        cases ht
        rfl
    have hl := JavaText.length_of_decode? hd
    rw [length_of_bytes hb] at hl
    have := length.toNat_lt
    omega
  all_goals first
    | exact .any_bind fun _ => .pure fun t h => by cases h
    | exact .any_bind fun _ => .any_bind fun _ => .pure fun t h => by cases h
    | exact .problem _

theorem PoolView.short_decodeEntries {count fuel : Nat} {entries entries' : Array (Option PoolEntry)} {i j : Input}
    (h : decodeEntries count fuel entries i = .ok (entries', j))
      (hs : ∀ t, some (.utf8 t) ∈ entries → t.units.length < 2 ^ 17) :
    ∀ t, some (.utf8 t) ∈ entries' → t.units.length < 2 ^ 17 := by
  induction fuel generalizing entries i with
  | zero =>
    cases h
    exact hs
  | succ fuel ih =>
    rw [decodeEntries] at h
    split at h
    · dsimp only at h
      split at h
      next entry k hk =>
        refine ih h fun t ht => ?_
        have hm : some (PoolEntry.utf8 t) ∈ entries ∨ entry = .utf8 t := by
          rw [push] at ht
          split at ht
          · rw [Array.mem_push, Array.mem_push] at ht
            rcases ht with (ht | ht) | ht
            · exact .inl ht
            · exact .inr (Option.some.inj ht).symm
            · cases ht
          · rw [Array.mem_push] at ht
            exact ht.imp_right fun h => (Option.some.inj h).symm
        rcases hm with hm | rfl
        · exact hs t hm
        · exact PoolEntry.only_decode _ _ _ _ hk t rfl
      next => cases h
    · cases h
      exact hs

theorem PoolView.short_of_decode {pool : PoolView} {i j : Input} (h : PoolView.decode i = .ok (pool, j)) : pool.Short := by
  obtain ⟨count, k, -, h⟩ := decode_bind_eq_ok.1 h
  obtain ⟨entries, l, he, h⟩ := decode_bind_eq_ok.1 h
  cases h
  exact short_decodeEntries he (by simp)

theorem PoolView.Short.utf8 {pool : PoolView} (h : pool.Short) {index : UInt16} {s : String} (hs : pool.utf8 index = .ok s) :
    s.length < 2 ^ 17 := by
  obtain ⟨t, ht, hp⟩ := bind_eq_ok.1 (within_eq_ok.1 hs)
  obtain ⟨e, he, ht⟩ := bind_eq_ok.1 ht
  have htext : e = .utf8 t := by
    cases e <;> first | (cases ht; rfl) | cases ht
  subst htext
  have hm : some (PoolEntry.utf8 t) ∈ pool.entries := by
    rw [entry] at he
    split at he
    next e' hget =>
      cases he
      exact Array.mem_of_getElem? hget
    next => cases he
  have hl : t.toString? = some s := by
    rw [plainText] at hp
    split at hp
    next s' hs' =>
      cases hp
      exact hs'
    next => cases hp
  exact (JavaText.length_of_toString? hl).trans_lt (h t hm)

/-! ## Descriptors -/

theorem length_descriptor {bytes : Bytes} {es : List ClassEvent} (h : readEvents bytes = .ok es) {header : MethodHeader}
    (hm : .method header ∈ es) : header.descriptor.length < 2 ^ 17 := by
  obtain ⟨c, rfl, -⟩ := exists_classRead h
  obtain ⟨m, hmem, rfl⟩ : ∃ m ∈ c.methods, m.header = header := by
    simp only [Elements.flatten, mem_cons, mem_append, mem_flatMap, not_mem_nil, or_false, reduceCtorEq, false_or] at hm
    rcases hm with (hm | ⟨f, hf, hm⟩) | ⟨m, hmem, hm | hm⟩
    · cases c.proper.events _ hm
    · cases c.proper.fields f hf _ hm
    · cases hm
      obtain ⟨r, hr, rfl⟩ := mem_map.1 hmem
      exact ⟨r, hr, rfl⟩
    · cases c.proper.methods m hmem _ hm
  obtain ⟨_, _, hat⟩ := c.methodsAt.exists_at m hmem
  obtain ⟨_, _, _, -, -, hd, -⟩ := hat.member
  obtain ⟨index, -, hi⟩ := exists_of_decodeIndex hd
  have hshort : c.first.pool.Short := by
    obtain ⟨version, k, -, h⟩ := decode_bind_eq_ok.1 c.first.decodes
    obtain ⟨pool, k, hpool, h⟩ := decode_bind_eq_ok.1 h
    obtain ⟨header, k, -, h⟩ := decode_bind_eq_ok.1 h
    have hf : pool = c.first.pool := congrArg (fun p => p.1.1) (Except.ok.inj h)
    rw [← hf]
    exact PoolView.short_of_decode hpool
  exact hshort.utf8 hi

end ClassDoc
