/-
  Reading undoes writing.
-/
import ClassDoc.Proofs.ClassFile.Form
namespace ClassDoc

open List

/-! ## A class with a loop -/

namespace Loop

def start : Label := ⟨0⟩

def code : CodeForm where
  tryCatches := []
  steps := [⟨some (start, [3]), none, .var Opcode.iload 0⟩, ⟨none, none, .jump Opcode.ifeq start⟩,
    ⟨none, none, .simple Opcode.vreturn⟩]
  stop := none
  locals := []
  types := []
  maxs := (1, 1)

def layout : Layout where
  items := [⟨.label start, false, 0⟩, ⟨.insn (.var Opcode.iload 0), false, 0⟩, ⟨.insn (.jump Opcode.ifeq start), false, 1⟩,
    ⟨.insn (.simple Opcode.vreturn), false, 4⟩]
  labels := ({} : Std.HashMap Label Nat).insert start 0
  length := 5

def items : List Item :=
  [.label start, .insn (.var Opcode.iload 0), .insn (.jump Opcode.ifeq start), .insn (.simple Opcode.vreturn)]

theorem ofEvents_code : Body.ofEvents code.events = { items, lineNumbers := [(3, start)], maxs := some (1, 1) } := rfl

theorem of_items (P : Pool) : Layout.of items P = .ok layout P := by
  cbv

def form : ClassForm where
  header := ⟨⟨52, 0⟩, 33, "A", none, []⟩
  source := some (some "A.java", none)
  common := ⟨none, false, false, [], []⟩
  enclosing := none
  nestHost := none
  nestMembers := []
  permitted := []
  inner := []
  record := none
  module := none
  fields := []
  methods := [⟨⟨8, "m", "(I)V", []⟩, ⟨none, false, false, [], []⟩, [], ⟨none, []⟩, ⟨none, []⟩, none, some code⟩]

theorem canonical_code : code.Canonical where
  numbered := rfl
  used := by
    intro l hl
    obtain rfl : l = start := mem_singleton.1 hl
    exact ⟨.lineNumber 3 start, by simp [code, CodeForm.events, CodeStep.events], by simp, by simp [CodeEvent.labels]⟩
  frames := by simp [code]
  insns := by simp [code, Insn.IsPlain]
  locals := .nil
  types := .nil

theorem canonical_form : form.Canonical where
  version := by decide
  source := by simp [form]
  common := ⟨.nil, .nil⟩
  record := by simp [form]
  fields := by simp [form]
  methods := by
    simp only [form, mem_singleton, forall_eq]
    refine ⟨⟨.nil, .nil⟩, fun _ _ _ => ⟨⟨by simp, .nil⟩, by simp, .nil⟩, fun c hc => ?_⟩
    obtain rfl := Option.some.inj hc
    refine ⟨canonical_code, ?_⟩
    simp only [code, forall_mem_cons]
    exact ⟨rfl, rfl, rfl, by simp⟩

theorem staysShort_form : form.StaysShort := by
  intro b P _ m hm c hc placed hl
  obtain rfl := mem_singleton.1 hm
  obtain rfl := Option.some.inj hc
  rw [ofEvents_code, of_items] at hl
  cases hl
  intro x hx i hi op target hj hw
  simp only [layout, mem_cons, not_mem_nil, or_false] at hx
  rcases hx with rfl | rfl | rfl | rfl <;> cases hw

theorem exists_writeEvents : ∃ bytes, writeEvents form.events = .ok bytes := exists_eq_ok.2 (by cbv)

end Loop

/-- **The class file of a class in canonical form can be read, and it is read as that class exactly if no conditional jump was
made wide when it was written.** -/
theorem ClassForm.readEvents_writeEvents {f : ClassForm} (hf : f.Canonical) {bytes : Bytes}
    (h : writeEvents f.events = .ok bytes) :
    (∃ out, readEvents bytes = .ok out) ∧ (readEvents bytes = .ok f.events ↔ f.StaysShort) := by
  obtain ⟨out, hread, hout⟩ := exists_readEvents hf h
  refine ⟨⟨out, hread⟩, ?_⟩
  rw [hread, ← hout, Except.ok.injEq]

theorem readEvents_writeEvents_loop : ∃ bytes, writeEvents Loop.form.events = .ok bytes ∧
    readEvents bytes = .ok Loop.form.events := by
  obtain ⟨bytes, h⟩ := Loop.exists_writeEvents
  exact ⟨bytes, h, (ClassForm.readEvents_writeEvents Loop.canonical_form h).2.2 Loop.staysShort_form⟩

end ClassDoc
