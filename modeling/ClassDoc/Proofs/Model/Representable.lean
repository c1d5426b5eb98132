/-
  What class files say can be said by models.
-/
import ClassDoc.Proofs.ClassFile.Texts
import ClassDoc.Proofs.Descriptor
import ClassDoc.Proofs.Grammar
import ClassDoc.Proofs.Labels.Disassembly
namespace ClassDoc

open List

open ModelBuilder in
/-- **A model that is read can be represented, if it is valid.** -/
theorem representable_of_readModel {bytes : Bytes} {c : ClassModel} (h : (readModel bytes).value = .ok c) (hv : c.Valid) :
    c.Representable := by
  obtain ⟨es, he, hb⟩ := readModel_eq_ok.1 h
  have hd := (sound_of_buildModel hb).2
  obtain ⟨s, rfl, hp, hl, -⟩ := exists_elements he
  have hbuilds := (buildModel_flatten hp hl).1 hb
  refine ⟨hd, ?_⟩
  intro m hmem
  obtain ⟨x, hx, m', n, hr, rfl⟩ := exists_of_mem_right hbuilds.methods hmem
  have hd : (orderMethod m').descriptor = x.1.descriptor :=
    congrArg Model.Method.descriptor (soFar_run (hp.methods x hx) (hr default))
  have hlen : x.1.descriptor.length < 2 ^ 17 := by
    refine length_descriptor he ?_
    rw [Elements.flatten]
    exact mem_cons_of_mem _ (mem_append_left _ (mem_append_right _ (mem_flatMap.2 ⟨x, hx, by simp⟩)))
  obtain ⟨arguments, result, hvm⟩ := hv.methods _ hmem
  have ha := (Descriptor.splitMethod_eq_ok_iff.1 hvm.descriptor).length_le
  rw [hd] at ha
  have hpar := hvm.parameters
  rw [Bool.or_eq_true, List.isEmpty_iff, beq_iff_eq] at hpar
  rcases hpar with hpar | hpar
  · rw [hpar]
    decide
  · omega

end ClassDoc
