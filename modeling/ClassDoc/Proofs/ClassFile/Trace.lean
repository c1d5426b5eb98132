/-
  Giving the events of a trace to somebody, by what comes of it.
-/
import ClassDoc.ClassFile.Trace
import ClassDoc.Proofs.Fault
namespace ClassDoc.Trace

variable {σ : Type} {accept : ClassEvent → EStateM Fault σ Unit} {ends : Except Fault Unit} {s t : σ}
  {warned : List Warning} {items : List TraceItem} {f : Fault} {trace : Trace}

theorem feedItems_eq_ok : (feedItems accept ends s warned items).value = .ok t ↔
    ends = .ok () ∧ (items.filterMap TraceItem.event?).forM accept s = .ok () t := by
  induction items generalizing s warned with
  | nil =>
    have hf : ([] : List ClassEvent).forM accept s = .ok () s := rfl
    cases ends <;> simp [feedItems, hf, Except.map]
  | cons item items ih =>
    cases item with
    | warning w => exact ih
    | event places e =>
      have hi : (TraceItem.event places e).event? = some e := rfl
      rw [List.filterMap_cons_some hi, run_forM_cons, feedItems]
      cases he : accept e s with
      | ok u r => simp [ih]
      | error f r => simp

theorem feedItems_eq_error (h : (feedItems accept ends s warned items).value = .error f) : ends = .error f ∨
    ∃ g r, (items.filterMap TraceItem.event?).forM accept s = .error g r ∧ f.cause = g.cause := by
  induction items generalizing s warned with
  | nil =>
    cases ends with
    | ok u => cases h
    | error g => exact .inl (by simpa [feedItems, Except.map] using h)
  | cons item items ih =>
    cases item with
    | warning w => exact ih h
    | event places e =>
      have hi : (TraceItem.event places e).event? = some e := rfl
      rw [List.filterMap_cons_some hi]
      rw [feedItems] at h
      cases he : accept e s with
      | ok u r =>
        rw [he] at h
        refine (ih h).imp_right ?_
        rintro ⟨g, q, hg, hc⟩
        exact ⟨g, q, run_bind_eq_error.2 (.inr ⟨u, r, he, hg⟩), hc⟩
      | error g r =>
        rw [he] at h
        cases h
        exact .inr ⟨g, r, run_bind_eq_error.2 (.inl he), rfl⟩

/-- **Nothing fails exactly if the trace ends well and all its events are taken.** -/
theorem feed_eq_ok : (trace.feed accept s).value = .ok t ↔
    trace.outcome = .ok () ∧ (trace.items.filterMap TraceItem.event?).forM accept s = .ok () t :=
  feedItems_eq_ok

theorem feed_eq_error (h : (trace.feed accept s).value = .error f) : trace.outcome = .error f ∨
    ∃ g r, (trace.items.filterMap TraceItem.event?).forM accept s = .error g r ∧ f.cause = g.cause :=
  feedItems_eq_error h

end ClassDoc.Trace
