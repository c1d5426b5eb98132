/-
  Code in the form in which it is read.
-/
import ClassDoc.Proofs.ClassFile.Element
import ClassDoc.Proofs.Code.Defined
import ClassDoc.Proofs.Labels.Order
namespace ClassDoc

open List

/-! ## Instructions -/

def Insn.IsPlain {L : Type} : Insn L → Prop
  | method op _ _ _ interface => op = Opcode.invokeinterface → interface = true
  | invokeDynamic _ _ bootstrap arguments => bootstrap.isPlain = true ∧ ∀ h ∈ Constant.handlesAll arguments, h.isPlain = true
  | ldc constant => ∀ h ∈ constant.handles, h.isPlain = true
  | lookupSwitch _ pairs => pairs.Pairwise fun a b => a.1 < b.1
  | _ => True

theorem Insn.normal_of_isPlain {L : Type} {i : Insn L} (h : i.IsPlain) : i.normal = i := by
  cases i with
  | method op owner name descriptor interface =>
    have hi : (interface || op == Opcode.invokeinterface) = interface := by
      cases interface with
      | true => rfl
      | false => exact beq_eq_false_iff_ne.2 fun hop => nomatch h hop
    rw [Insn.normal, hi]
  | invokeDynamic name descriptor bootstrap arguments =>
    rw [Insn.normal, Handle.normal_of_isPlain h.1, Constant.normalAll_of_isPlain arguments h.2]
  | ldc constant => exact congrArg _ (Constant.normal_of_isPlain constant h)
  | lookupSwitch default pairs =>
    refine congrArg _ (mergeSort_of_pairwise (h.imp fun hab => ?_))
    simpa using Int32.le_of_lt hab
  | _ => rfl

/-! ## Forms -/

/-- An instruction with what stands before it. -/
structure CodeStep where
  label : Option (Label × List UInt16)
  frame : Option (Frame Label)
  insn : Insn Label

namespace CodeStep

variable (s : CodeStep)

def events : List CodeEvent :=
  s.label.toList.flatMap (fun l => .label l.1 :: l.2.map fun line => .lineNumber line l.1)
    ++ s.frame.toList.map CodeEvent.frame ++ [.insn s.insn]

def items : List Item :=
  s.label.toList.map (fun l => Item.label l.1) ++ s.frame.toList.map Item.frame ++ [.insn s.insn]

def lines : List (UInt16 × Label) := s.label.toList.flatMap fun l => l.2.map fun line => (line, l.1)

variable {s}

theorem mem_events {e : CodeEvent} :
    e ∈ s.events ↔ (∃ l ∈ s.label, e = .label l.1 ∨ ∃ line ∈ l.2, e = .lineNumber line l.1) ∨
    (∃ f ∈ s.frame, e = .frame f) ∨ e = .insn s.insn := by
  simp only [events, mem_append, mem_flatMap, mem_cons, mem_map, Option.mem_toList, Option.mem_def,
    not_mem_nil, or_false, or_assoc, eq_comm (b := e)]

end CodeStep

/-- What the events say of a code. -/
structure CodeForm where
  tryCatches : List TryCatch
  steps : List CodeStep
  stop : Option Label
  locals : List LocalVariable
  types : List (Bool × TypeAnnotation Label)
  maxs : UInt16 × UInt16

def LocalVariable.key (v : LocalVariable) : Label × Label × UInt16 × String := (v.start, v.stop, v.index, v.name)

/-- The visible ones come first. -/
def VisibleFirst {α : Type} (xs : List (Bool × α)) : Prop := xs.Pairwise fun a b => b.1 = true → a.1 = true

namespace CodeForm

variable (c : CodeForm)

def events : List CodeEvent :=
  c.tryCatches.map CodeEvent.tryCatch ++ c.steps.flatMap CodeStep.events ++ c.stop.toList.map CodeEvent.label
    ++ c.locals.map CodeEvent.localVariable ++ c.types.map (fun a => CodeEvent.annotateType a.1 a.2)
    ++ [.maxs c.maxs.1 c.maxs.2]

def defined : List Label := c.steps.filterMap (fun s => s.label.map Prod.fst) ++ c.stop.toList

/-- The labels are numbered in the order in which they are defined, each one is used by some other event, and nothing is
said that is not read. -/
structure Canonical (c : CodeForm) : Prop where
  numbered : c.defined = Label.firsts c.defined.length
  used : ∀ l ∈ c.defined, ∃ e ∈ c.events, e ≠ .label l ∧ l ∈ e.labels
  frames : ∀ s ∈ c.steps, ∀ f ∈ s.frame, f.trim = f
  insns : ∀ s ∈ c.steps, s.insn.IsPlain
  locals : (c.locals.map LocalVariable.key).Nodup
  types : VisibleFirst c.types

theorem ofEvents_events : Body.ofEvents c.events =
    { items := c.steps.flatMap CodeStep.items ++ c.stop.toList.map Item.label
      tryCatches := c.tryCatches
      lineNumbers := c.steps.flatMap CodeStep.lines
      localVariables := c.locals
      typeAnnotations := c.types
      maxs := some c.maxs } := by
  have hitems : ∀ s : CodeStep, s.events.filterMap Body.item? = s.items := by
    rintro ⟨_ | l, _ | f, i⟩ <;>
      simp [CodeStep.events, CodeStep.items, filterMap_map, Function.comp_def, Body.item?]
  have hlines : ∀ s : CodeStep, s.events.filterMap Body.lineNumber? = s.lines := by
    rintro ⟨_ | l, _ | f, i⟩ <;>
      simp [CodeStep.events, CodeStep.lines, filterMap_cons, filterMap_map, Function.comp_def, Body.lineNumber?]
  have hnil : ∀ {β : Type} (g : CodeEvent → Option β), (∀ s : CodeStep, ∀ e ∈ s.events, g e = none) →
      c.steps.flatMap (fun s => s.events.filterMap g) = [] := fun g hg =>
    flatMap_eq_nil_iff.2 fun s _ => filterMap_eq_nil_iff.2 (hg s)
  have hevents : ∀ s : CodeStep, ∀ e ∈ s.events, Body.tryCatch? e = none ∧ Body.localVariable? e = none ∧
      Body.annotatedType? e = none ∧ Body.maxs? e = none := by
    intro s e he
    rcases CodeStep.mem_events.1 he with ⟨l, -, rfl | ⟨line, -, rfl⟩⟩ | ⟨f, -, rfl⟩ | rfl <;> exact ⟨rfl, rfl, rfl, rfl⟩
  simp only [Body.ofEvents, events, Body.mk.injEq, filterMap_append, filterMap_flatMap, filterMap_map,
    Function.comp_def, hitems, hlines, hnil _ fun s e he => (hevents s e he).1, hnil _ fun s e he => (hevents s e he).2.1,
    hnil _ fun s e he => (hevents s e he).2.2.1, hnil _ fun s e he => (hevents s e he).2.2.2]
  simp [Body.item?, Body.tryCatch?, Body.lineNumber?, Body.localVariable?, Body.annotatedType?, Body.maxs?]

end CodeForm

/-! ## Where the instructions stand -/

/-- A step and where it is in the code. -/
structure PlacedStep where
  step : CodeStep
  pc : Nat
  /-- Whether the label, the frame and the instruction are wide, which matters for the instruction only. -/
  wide : Bool × Bool × Bool

namespace PlacedStep

variable (p : PlacedStep)

def items : List Placed :=
  p.step.label.toList.map (fun l => ⟨.label l.1, p.wide.1, p.pc⟩)
    ++ p.step.frame.toList.map (fun f => ⟨.frame f, p.wide.2.1, p.pc⟩)
    ++ [⟨.insn p.step.insn, p.wide.2.2, p.pc⟩]

end PlacedStep

section
variable {P : Pool} {start stop : Nat} {xs : List Placed}

theorem Laid.of_empty {o : Option Item} (h : Laid P start xs stop) (hx : xs.map Placed.item = o.toList)
    (ho : ∀ i, o ≠ some (.insn i)) : ∃ wide, start = stop ∧ xs = o.toList.map fun item => ⟨item, wide, start⟩ := by
  cases o with
  | none =>
    obtain rfl := map_eq_nil_iff.1 hx
    exact ⟨false, h, rfl⟩
  | some item =>
    obtain ⟨⟨item, wide, offset⟩, rfl, rfl⟩ := map_eq_singleton_iff.1 hx
    obtain ⟨rfl, n, hn, h⟩ := h
    obtain rfl : n = 0 := Placed.hasSize_zero (fun i hi => ho i (congrArg some hi)) hn
    exact ⟨wide, h, rfl⟩

theorem exists_placedStep {s : CodeStep} (h : Laid P start xs stop) (hx : xs.map Placed.item = s.items) :
    ∃ p : PlacedStep, p.step = s ∧ p.pc = start ∧ xs = p.items ∧ start < stop := by
  obtain ⟨label, frame, insn⟩ := s
  simp only [CodeStep.items, ← Option.toList_map] at hx
  obtain ⟨front, back, rfl, hfront, hback⟩ := map_eq_append_iff.1 hx
  obtain ⟨labels, frames, rfl, hlabels, hframes⟩ := map_eq_append_iff.1 hfront
  obtain ⟨⟨item, wide, offset⟩, rfl, rfl⟩ := map_eq_singleton_iff.1 hback
  obtain ⟨m₁, hfront, hlaid⟩ := h.append
  obtain ⟨m₂, hl, hf⟩ := hfront.append
  obtain ⟨w₁, rfl, rfl⟩ := hl.of_empty hlabels (by cases label <;> simp)
  obtain ⟨w₂, rfl, rfl⟩ := hf.of_empty hframes (by cases frame <;> simp)
  obtain ⟨rfl, n, hn, rfl⟩ := hlaid
  have := Placed.hasSize_pos rfl hn
  exact ⟨⟨⟨label, frame, insn⟩, offset, w₁, w₂, wide⟩, rfl, rfl, by cases label <;> cases frame <;> rfl, by omega⟩

/-- **The instructions stand one behind the other, each with what stands before it, and the last label stands at the end.** -/
theorem exists_placedSteps {steps : List CodeStep} {last : Option Label} (h : Laid P start xs stop)
    (hx : xs.map Placed.item = steps.flatMap CodeStep.items ++ last.toList.map Item.label) :
    ∃ (ps : List PlacedStep) (wide : Bool), ps.map PlacedStep.step = steps ∧
      xs = ps.flatMap PlacedStep.items ++ last.toList.map (fun l => ⟨.label l, wide, stop⟩) ∧
      (ps.map PlacedStep.pc).Pairwise (· < ·) ∧ ∀ p ∈ ps, start ≤ p.pc ∧ p.pc < stop := by
  induction steps generalizing start xs with
  | nil =>
    rw [flatMap_nil, nil_append] at hx
    cases last with
    | none =>
      obtain rfl := map_eq_nil_iff.1 hx
      exact ⟨[], false, rfl, rfl, .nil, by simp⟩
    | some l =>
      obtain ⟨⟨item, wide, offset⟩, rfl, rfl⟩ := map_eq_singleton_iff.1 hx
      obtain ⟨rfl, n, hn, h⟩ := h
      obtain rfl : n = 0 := hn
      obtain rfl : offset = stop := h
      exact ⟨[], wide, rfl, rfl, .nil, by simp⟩
  | cons s steps ih =>
    rw [flatMap_cons, append_assoc] at hx
    obtain ⟨ys, zs, rfl, hys, hzs⟩ := map_eq_append_iff.1 hx
    obtain ⟨middle, hfirst, hrest⟩ := h.append
    obtain ⟨p, rfl, rfl, rfl, hlt⟩ := exists_placedStep hfirst hys
    obtain ⟨ps, wide, rfl, rfl, hp, hb⟩ := ih hrest hzs
    refine ⟨p :: ps, wide, rfl, by simp, ?_, ?_⟩
    · rw [map_cons, pairwise_cons]
      refine ⟨fun pc hpc => ?_, hp⟩
      obtain ⟨q, hq, rfl⟩ := mem_map.1 hpc
      exact hlt.trans_le (hb q hq).1
    · have := hrest.le
      simp only [forall_mem_cons]
      exact ⟨⟨le_rfl, by omega⟩, fun q hq => ⟨hlt.le.trans (hb q hq).1, (hb q hq).2⟩⟩

end

end ClassDoc
