/-
  The labels of class files.
-/
import ClassDoc.Assembly
import ClassDoc.Proofs.Labels.Built
import ClassDoc.Proofs.Labels.Order
namespace ClassDoc

theorem Report.value_bind {α β : Type} (r : Report α) (k : α → Report β) :
    (r >>= k).value = r.value >>= fun a => (k a).value := by
  obtain ⟨value, warnings⟩ := r
  cases value <;> rfl

theorem readModel_eq_ok {bytes : Bytes} {c : ClassModel} : (readModel bytes).value = .ok c ↔
    ∃ es, readEvents bytes = .ok es ∧ buildModel es = .ok c := by
  rw [readModel, Report.value_bind, bind_eq_ok]
  constructor
  · rintro ⟨b, hb, hc⟩
    obtain ⟨ho, hf⟩ := Trace.feed_eq_ok.1 hb
    refine ⟨_, by rw [readEvents, Trace.events, ho]; rfl, ?_⟩
    rw [buildModel, hf]
    exact hc
  · rintro ⟨es, he, hc⟩
    obtain ⟨_, ho, he⟩ := bind_eq_ok.1 he
    cases he
    rw [buildModel] at hc
    split at hc
    next b hb => exact ⟨b, Trace.feed_eq_ok.2 ⟨ho, hb⟩, hc⟩
    next => cases hc

theorem IsRead.numberedInOrder {code : List CodeEvent} (h : IsRead code) : NumberedInOrder code := by
  rcases h with rfl | ⟨raw, hr, ha⟩
  · exact ⟨⟨0, by decide, rfl⟩, by simp⟩
  · exact RawCode.numberedInOrder hr ha.pairwise fun i hi => UInt16.lt_iff_toNat_lt.2 (ha.lt i hi)

theorem IsRead.insnsFit {code : List CodeEvent} (h : IsRead code) : InsnsFit code := by
  rcases h with rfl | ⟨raw, hr, ha⟩
  · exact fun i hi => nomatch hi
  · intro i hi
    obtain ⟨x, hx, rfl⟩ := RawCode.mem_insns_of_events hr hi
    exact Insn.fits_map.2 (ha.decoded x hx).1

theorem labels_of_readModel {bytes : Bytes} {c : ClassModel} (h : (readModel bytes).value = .ok c) :
    ∀ m ∈ c.methods, m.checkLabels = .ok () ∧ m.IsOfClassFile := by
  obtain ⟨es, he, hb⟩ := readModel_eq_ok.1 h
  obtain ⟨s, rfl, hp, hl, hc⟩ := exists_elements he
  have hbuilds := (buildModel_flatten hp hl).1 hb
  intro m hm
  obtain ⟨x, hx, hxm⟩ := exists_of_mem_right hbuilds.methods hm
  exact Model.Method.labels_of_builds hxm (hp.methods x hx) (hc x hx).numberedInOrder.wellLabelled (hl.methods x hx)
    (hc x hx).insnsFit

theorem readModel_safe (bytes : Bytes) : LabelSafe (readModel bytes).value := by
  intro f hf
  have hf : (readModel bytes).value = .error f := hf
  rw [readModel, Report.value_bind] at hf
  cases hv : ((readTrace bytes).feed ModelBuilder.accept {}).value with
  | ok b =>
    rw [hv] at hf
    have hs : LabelSafe b.finish := .ite (.ok _) (.error rfl)
    exact hs f hf
  | error e =>
    rw [hv] at hf
    cases hf
    rcases Trace.feed_eq_error hv with ho | ⟨g, t, hr, hc⟩
    · exact outcome_safe bytes f ho
    · rw [hc]
      exact LabelSafe.forM _ (fun e _ => LabelSafe.accept e) g ⟨_, _, hr⟩

theorem disassemble_value (options : DocumentOptions) (bytes : Bytes) : (disassemble options bytes).value =
    (readModel bytes).value >>= fun c => c.validate >>= fun _ => .ok (c.toNode options) := by
  rw [disassemble, Report.value_bind]
  congr 1
  funext c
  rw [Report.value_bind]
  rfl

theorem disassemble_safe (options : DocumentOptions) (bytes : Bytes) : LabelSafe (disassemble options bytes).value := by
  rw [disassemble_value]
  intro f hf
  cases hv : (readModel bytes).value with
  | error e =>
    rw [hv] at hf
    cases hf
    exact readModel_safe bytes f hv
  | ok c =>
    rw [hv] at hf
    exact LabelSafe.bind (LabelSafe.validateClass (labels_of_readModel hv)) (fun _ => .ok _) f hf

/-- **The labels of each method of a class file are defined from zero on in the order of its events, and no others are
mentioned; so the labels of its model are in order, and it is never refused because of its control flow.** -/
theorem disassemble_labels (bytes : Bytes) :
    (∀ es, readEvents bytes = .ok es → ∀ code ∈ methodCodes es,
      (∃ count ≤ 0x10000, code.filterMap CodeEvent.defined? = (List.range count).map fun i => ⟨UInt32.ofNat i⟩) ∧
      ∀ e ∈ code, ∀ l ∈ e.labels, l ∈ code.filterMap CodeEvent.defined?) ∧
    (∀ c, (readModel bytes).value = .ok c → ∀ m ∈ c.methods, m.checkLabels = .ok ()) ∧
    ∀ options f, (disassemble options bytes).value = .error f → ∀ p, f.cause ≠ .malformedControlFlow p := by
  refine ⟨fun es he code hcode => ?_, fun c hc m hm => (labels_of_readModel hc m hm).1, fun options f hf p hp => ?_⟩
  · obtain ⟨s, rfl, hp, -, hc⟩ := exists_elements he
    rw [Elements.methodCodes_flatten hp] at hcode
    obtain ⟨m, hm, rfl⟩ := List.mem_map.1 hcode
    obtain ⟨hd, hl⟩ := (hc m hm).numberedInOrder
    exact ⟨hd, hl⟩
  · have hl := disassemble_safe options bytes f hf
    rw [hp] at hl
    cases hl

end ClassDoc
