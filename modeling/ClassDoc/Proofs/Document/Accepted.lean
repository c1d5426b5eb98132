/-
  Documents of class files are read back.
-/
import ClassDoc.Proofs.Document.Class
import ClassDoc.Proofs.Model.Representable
namespace ClassDoc

/-- **A document that is made from a class file is read back, as the class that the file holds, if no escaped name in it is
empty and no class or package name has an empty segment.** -/
theorem ofNode_disassemble {options : DocumentOptions} {bytes : Bytes} {root : Node}
    (h : (disassemble options bytes).value = .ok root) : ∃ c, (readModel bytes).value = .ok c ∧
      ((∀ n ∈ c.escapedNames, n ≠ "") → (∀ n ∈ c.pathNames, Name.hasSegments n = true) →
        ClassModel.ofNode root = .ok c) := by
  rw [disassemble_value] at h
  obtain ⟨c, hc, h⟩ := bind_eq_ok.1 h
  obtain ⟨_, hv, h⟩ := bind_eq_ok.1 h
  cases h
  have hv : c.Valid := ClassModel.validate_iff.1 hv
  exact ⟨c, hc, fun hn hp => ClassModel.ofNode_toNode hv hn hp (representable_of_readModel hc hv) options⟩

/-- A class file of the class `p/A` with an inner class and an annotation that has the element `v` twice. -/
def repeatedClass : Bytes :=
  [202, 254, 186, 190, 0, 0, 0, 52, 0, 15, 1, 0, 3, 112, 47, 65, 7, 0, 1, 1, 0, 3, 112, 47, 66, 7, 0, 3, 1, 0, 12, 73, 110,
    110, 101, 114, 67, 108, 97, 115, 115, 101, 115, 1, 0, 5, 112, 47, 65, 36, 97, 7, 0, 6, 1, 0, 1, 97, 1, 0, 25, 82, 117,
    110, 116, 105, 109, 101, 86, 105, 115, 105, 98, 108, 101, 65, 110, 110, 111, 116, 97, 116, 105, 111, 110, 115, 1, 0, 3,
    76, 77, 59, 1, 0, 1, 118, 1, 0, 3, 76, 69, 59, 1, 0, 1, 120, 1, 0, 1, 121, 0, 33, 0, 2, 0, 4, 0, 0, 0, 0, 0, 0, 0, 2, 0,
    5, 0, 0, 0, 10, 0, 1, 0, 7, 0, 2, 0, 8, 0, 1, 0, 9, 0, 0, 0, 20, 0, 1, 0, 10, 0, 2, 0, 11, 101, 0, 12, 0, 13, 0, 11, 101,
    0, 12, 0, 14]

theorem ofNode_disassemble_repeated : ∃ root c, (disassemble ⟨true, true⟩ repeatedClass).value = .ok root ∧
    (readModel repeatedClass).value = .ok c ∧ c.escapedNames = ["a", "v", "y"] ∧
      c.pathNames = ["p/A", "p/B", "p/A$a", "p/A"] ∧
    ClassModel.ofNode root = .ok c := by
  obtain ⟨root, h⟩ : ∃ root, (disassemble ⟨true, true⟩ repeatedClass).value = .ok root := exists_eq_ok.2 (by decide +kernel)
  obtain ⟨c₀, hc₀, hn, hp⟩ : ∃ c, (readModel repeatedClass).value = .ok c ∧ c.escapedNames = ["a", "v", "y"] ∧
      c.pathNames = ["p/A", "p/B", "p/A$a", "p/A"] := by decide +kernel
  obtain ⟨c, hc, hback⟩ := ofNode_disassemble h
  obtain rfl : c₀ = c := Except.ok.inj (hc₀.symm.trans hc)
  refine ⟨root, c₀, h, hc, hn, hp, hback ?_ ?_⟩
  · rw [hn]
    decide
  · rw [hp]
    exact List.all_eq_true.1 (by decide)

/-- A class file of a class whose name is empty. -/
def namelessClass : Bytes :=
  [202, 254, 186, 190, 0, 0, 0, 52, 0, 3, 1, 0, 0, 7, 0, 1, 0, 33, 0, 2, 0, 0, 0, 0, 0, 0, 0, 0, 0, 0]

/-- A class with an empty name has a document, which cannot be read. -/
theorem refused_nameless : ∃ root, (disassemble ⟨false, false⟩ namelessClass).value = .ok root ∧
    ∀ c, ClassModel.ofNode root ≠ .ok c := by
  obtain ⟨root, h, hn⟩ : ∃ root, (disassemble ⟨false, false⟩ namelessClass).value = .ok root ∧
      (ClassModel.ofNode root).isOk = false := by decide +kernel
  refine ⟨root, h, fun c hc => ?_⟩
  rw [hc] at hn
  cases hn

end ClassDoc
