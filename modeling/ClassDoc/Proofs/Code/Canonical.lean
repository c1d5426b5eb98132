/-
  Code in canonical form is read as it was written.
-/
import ClassDoc.Proofs.Code.Form
namespace ClassDoc

open List

theorem byVisibility_of_visibleFirst {α : Type} {xs : List (Bool × α)} (h : VisibleFirst xs) : byVisibility xs = xs := by
  induction xs with
  | nil => rfl
  | cons x xs ih =>
    obtain ⟨visible, a⟩ := x
    have ih := ih h.of_cons
    have hx := (pairwise_cons.1 h).1
    cases visible with
    | true =>
      rw [byVisibility] at ih ⊢
      conv_rhs => rw [← ih]
      rfl
    | false =>
      have hnone : withVisibility true xs = [] := by
        refine filterMap_eq_nil_iff.2 fun y hy => ?_
        cases hv : y.1 with
        | true => cases hx y hy hv
        | false => rfl
      have hcons : withVisibility true ((false, a) :: xs) = withVisibility true xs := rfl
      rw [byVisibility, hnone, map_nil, nil_append] at ih
      rw [byVisibility, hcons, hnone, map_nil, nil_append]
      conv_rhs => rw [← ih]
      rfl

/-- The instruction is no conditional jump that is made wide. -/
def Insn.StaysShort {L : Type} (i : Insn L) (wide : Bool) : Prop :=
  ∀ op target, i = .jump op target → wide = true → Opcode.inverse? op = none

/-- No conditional jump is made wide. -/
def Layout.StaysShort (layout : Layout) : Prop := ∀ x ∈ layout.items, ∀ i, x.item = .insn i → i.StaysShort x.wide

theorem rawInsns_of_short {layout : Layout} {pc : Nat} {wide : Bool} {i : Insn Label} (h : i.StaysShort wide) :
    rawInsns layout pc wide i = [(UInt16.ofNat pc, i.normal.map layout.posOf)] := by
  unfold rawInsns
  split
  next op target =>
    have hn : (if wide then Opcode.inverse? op else none) = none := by
      cases wide with
      | true => exact h op target rfl rfl
      | false => rfl
    rw [hn]
    rfl
  next => rfl

theorem length_rawInsns (layout : Layout) (pc : Nat) {wide : Bool} {i : Insn Label} :
    1 ≤ (rawInsns layout pc wide i).length ∧ ((rawInsns layout pc wide i).length = 1 → i.StaysShort wide) := by
  unfold rawInsns
  split
  next op target =>
    split
    next => simp
    next hn =>
      refine ⟨by simp, fun _ op' target' he hw => ?_⟩
      cases he
      rwa [hw, if_pos rfl] at hn
  next i hi => exact ⟨by simp, fun _ op target he => absurd he (hi op target)⟩

theorem eq_one_of_length_flatMap {α β : Type} {f : α → List β} {xs : List α} (hf : ∀ x ∈ xs, 1 ≤ (f x).length)
    (h : (xs.flatMap f).length = xs.length) : ∀ x ∈ xs, (f x).length = 1 := by
  have hle : ∀ ys : List α, (∀ y ∈ ys, 1 ≤ (f y).length) → ys.length ≤ (ys.flatMap f).length := by
    intro ys hy
    rw [length_flatMap]
    simpa using card_nsmul_le_sum (ys.map fun y => (f y).length) 1 (by simpa using hy)
  induction xs with
  | nil => simp
  | cons x xs ih =>
    rw [forall_mem_cons] at hf
    rw [flatMap_cons, length_append, length_cons] at h
    have := hle xs hf.2
    have := hf.1
    rw [forall_mem_cons]
    exact ⟨by omega, ih hf.2 (by omega)⟩

/-- What tells local variables apart in the tables. -/
def RawVariable.key (v : RawVariable) : VariableKey := (v.start, v.stop - v.start, v.index, v.name)

namespace RawCode

theorem getElem?_foldl_insert_of_unique {α κ β : Type} [BEq κ] [Hashable κ] [LawfulBEq κ] {k : α → κ} {v : α → β}
    {xs : List α} {o : κ} {y : Option β} (h : ∀ x ∈ xs, k x = o → y = some (v x)) (hy : y ≠ none → ∃ x ∈ xs, k x = o) :
    (xs.foldl (fun (m : Std.HashMap κ β) x => m.insert (k x) (v x)) {})[o]? = y := by
  rw [getElem?_foldl_insert]
  cases hx : xs.reverse.find? fun x => k x == o with
  | some x =>
    have hk : k x = o := by simpa using find?_some hx
    exact (h x (mem_reverse.1 (mem_of_find?_eq_some hx)) hk).symm
  | none =>
    by_contra hne
    obtain ⟨x, hm, hk⟩ := hy (Ne.symm hne)
    exact absurd (beq_iff_eq.2 hk) (find?_eq_none.1 hx x (mem_reverse.2 hm))

theorem getD_linesAt (code : RawCode) (o : UInt16) :
    code.linesAt[o]?.getD [] = ((code.lines.filter fun line => line.1 == o).map Prod.snd).reverse := by
  rw [linesAt]
  induction code.lines using List.reverseRecOn with
  | nil => simp
  | append_singleton lines line ih =>
    rw [foldl_concat, filter_append, map_append, reverse_append, ← ih]
    cases ho : line.1 == o with
    | true =>
      obtain rfl := eq_of_beq ho
      simp
    | false => simp [Std.HashMap.getElem?_insert, ho]

theorem variableEvents_of_nodup (labels : Std.HashMap UInt16 Label) {vs : List RawVariable}
    (hn : (vs.map RawVariable.key).Nodup)
    (signatures : Std.HashMap VariableKey String) (found : List CodeEvent) :
    variableEvents labels signatures found vs = found.reverse ++ vs.map fun v => .localVariable
      ⟨v.name, v.descriptor, signatures[v.key]?, labelAt labels v.start, labelAt labels v.stop, v.index⟩ := by
  induction vs generalizing signatures found with
  | nil => simp [variableEvents]
  | cons v vs ih =>
    obtain ⟨hv, hn⟩ := nodup_cons.1 hn
    rw [variableEvents, ih hn, reverse_cons, append_assoc, map_cons, singleton_append]
    congr 2
    refine map_congr_left fun u hu => ?_
    have hne : ¬((v.start, v.stop - v.start, v.index, v.name) == u.key) = true := fun he =>
      hv (mem_map.2 ⟨u, hu, (eq_of_beq he).symm⟩)
    rw [Std.HashMap.getElem?_erase, if_neg hne]

end RawCode

namespace PlacedStep

variable {p : PlacedStep}

theorem mem_items {x : Placed} : x ∈ p.items ↔ (∃ l ∈ p.step.label, x = ⟨.label l.1, p.wide.1, p.pc⟩) ∨
    (∃ f ∈ p.step.frame, x = ⟨.frame f, p.wide.2.1, p.pc⟩) ∨ x = ⟨.insn p.step.insn, p.wide.2.2, p.pc⟩ := by
  simp only [items, mem_append, mem_map, Option.mem_toList, Option.mem_def, mem_singleton, or_assoc,
    eq_comm (b := x)]

theorem flatMap_raw (layout : Layout) (p : PlacedStep) :
    p.items.flatMap (Placed.raw layout) = rawInsns layout p.pc p.wide.2.2 p.step.insn := by
  obtain ⟨⟨_ | l, _ | f, i⟩, pc, wide⟩ := p <;> simp [items, Placed.raw]

end PlacedStep

namespace CodeForm

variable {c : CodeForm} {layout : Layout} {P : Pool} {ps : List PlacedStep}

/-- The steps of the form stand in the layout. -/
structure LaidOut (c : CodeForm) (layout : Layout) (ps : List PlacedStep) : Prop where
  steps : ps.map PlacedStep.step = c.steps
  ascending : (ps.map PlacedStep.pc).Pairwise (· < ·)
  before : ∀ p ∈ ps, p.pc < layout.length
  length : layout.length < 0x10000
  labels : ∀ l n, layout.labels[l]? = some n ↔
    (∃ p ∈ ps, p.step.label.map Prod.fst = some l ∧ p.pc = n) ∨ (c.stop = some l ∧ layout.length = n)
  raw : layout.raw = ps.flatMap fun p => rawInsns layout p.pc p.wide.2.2 p.step.insn
  frames : layout.frames = ps.filterMap fun p => p.step.frame.map fun f => (p.pc, f)
  short : layout.StaysShort ↔ ∀ p ∈ ps, p.step.insn.StaysShort p.wide.2.2

theorem exists_laidOut (h : layout.Fits P (Body.ofEvents c.events).items) : ∃ ps, c.LaidOut layout ps := by
  rw [ofEvents_events] at h
  obtain ⟨ps, wide, hs, hitems, ha, hb⟩ := exists_placedSteps h.laid h.items_eq
  have hlabel := h.label_iff
  refine ⟨ps, hs, ha, fun p hp => (hb p hp).2, h.lt, fun l n => ?_, ?_, ?_, ?_⟩
  · rw [hlabel, hitems]
    simp only [mem_append, mem_flatMap, PlacedStep.mem_items, mem_map, Option.mem_toList]
    constructor
    · rintro ⟨x, ⟨p, hp, ⟨l', hl', rfl⟩ | ⟨f, -, rfl⟩ | rfl⟩ | ⟨l', hl', rfl⟩, hi, rfl⟩
      · cases hi
        exact .inl ⟨p, hp, by rw [hl']; rfl, rfl⟩
      · cases hi
      · cases hi
      · cases hi
        exact .inr ⟨hl', rfl⟩
    · rintro (⟨p, hp, hl, rfl⟩ | ⟨hl, rfl⟩)
      · obtain ⟨l', hl', rfl⟩ := Option.map_eq_some_iff.1 hl
        exact ⟨_, .inl ⟨p, hp, .inl ⟨l', hl', rfl⟩⟩, rfl, rfl⟩
      · exact ⟨_, .inr ⟨l, hl, rfl⟩, rfl, rfl⟩
  · have hlast : (c.stop.toList.map fun l => (⟨.label l, wide, layout.length⟩ : Placed)).flatMap
      (Placed.raw layout) = [] := by
      cases c.stop <;> rfl
    rw [Layout.raw, hitems, flatMap_append, hlast, append_nil, flatMap_assoc]
    exact flatMap_congr fun p _ => PlacedStep.flatMap_raw layout p
  · have hlast : ∀ g : Placed → Option (Nat × Frame Label), (∀ l, g ⟨.label l, wide, layout.length⟩ = none) →
        (c.stop.toList.map fun l => (⟨.label l, wide, layout.length⟩ : Placed)).filterMap g = [] := by
      intro g hg
      cases c.stop <;> simp [hg]
    rw [Layout.frames, hitems, filterMap_append, hlast _ fun _ => rfl, append_nil, filterMap_flatMap,
      filterMap_eq_flatMap_toList]
    refine flatMap_congr fun p _ => ?_
    obtain ⟨⟨_ | l, _ | f, i⟩, pc, wide⟩ := p <;> rfl
  · rw [Layout.StaysShort, hitems]
    simp only [mem_append, mem_flatMap, PlacedStep.mem_items, mem_map, Option.mem_toList]
    constructor
    · exact fun h p hp => h _ (.inl ⟨p, hp, .inr (.inr rfl)⟩) _ rfl
    · rintro h x (⟨p, hp, ⟨l, -, rfl⟩ | ⟨f, -, rfl⟩ | rfl⟩ | ⟨l, -, rfl⟩) i hi
      · cases hi
      · cases hi
      · cases hi
        exact h p hp
      · cases hi

/-! ## Positions -/

namespace LaidOut

variable (h : c.LaidOut layout ps) {l : Label} {p : PlacedStep}
include h

theorem toNat_pc (hp : p ∈ ps) : (UInt16.ofNat p.pc).toNat = p.pc :=
  UInt16.toNat_ofNat_of_lt' ((h.before p hp).trans h.length)

theorem toNat_length : (UInt16.ofNat layout.length).toNat = layout.length := UInt16.toNat_ofNat_of_lt' h.length

theorem pc_inj {q : PlacedStep} (hp : p ∈ ps) (hq : q ∈ ps) (he : UInt16.ofNat p.pc = UInt16.ofNat q.pc) : p = q := by
  have hn : (ps.map PlacedStep.pc).Nodup := h.ascending.imp fun hlt => Nat.ne_of_lt hlt
  refine inj_on_of_nodup_map hn hp hq ?_
  rw [← h.toNat_pc hp, ← h.toNat_pc hq, he]

theorem posOf_label (hp : p ∈ ps) (hl : p.step.label.map Prod.fst = some l) : layout.posOf l = UInt16.ofNat p.pc := by
  rw [Layout.posOf, (h.labels l p.pc).2 (.inl ⟨p, hp, hl, rfl⟩)]
  rfl

theorem posOf_stop (hl : c.stop = some l) : layout.posOf l = UInt16.ofNat layout.length := by
  rw [Layout.posOf, (h.labels l layout.length).2 (.inr ⟨hl, rfl⟩)]
  rfl

theorem defined_eq : c.defined = ps.filterMap (fun p => p.step.label.map Prod.fst) ++ c.stop.toList := by
  rw [CodeForm.defined, ← h.steps, filterMap_map]
  rfl

theorem mem_defined : l ∈ c.defined ↔ layout.Defines l := by
  rw [h.defined_eq, mem_append, mem_filterMap, Option.mem_toList, Layout.Defines]
  simp only [h.labels]
  constructor
  · rintro (⟨p, hp, hl⟩ | hl)
    · exact ⟨p.pc, .inl ⟨p, hp, hl, rfl⟩⟩
    · exact ⟨_, .inr ⟨hl, rfl⟩⟩
  · rintro ⟨n, ⟨p, hp, hl, -⟩ | ⟨hl, -⟩⟩
    · exact .inl ⟨p, hp, hl⟩
    · exact .inr hl

theorem pairwise_posOf : (c.defined.map layout.posOf).Pairwise (· < ·) := by
  rw [h.defined_eq, map_append, pairwise_append]
  refine ⟨?_, by cases c.stop <;> simp, fun o ho o' ho' => ?_⟩
  · rw [pairwise_map, pairwise_filterMap]
    refine List.Pairwise.imp_of_mem (fun {p q} hp hq hlt l hl l' hl' => ?_) (pairwise_map.1 h.ascending)
    rw [h.posOf_label hp hl, h.posOf_label hq hl', UInt16.lt_iff_toNat_lt, h.toNat_pc hp, h.toNat_pc hq]
    exact hlt
  · obtain ⟨l, hl, rfl⟩ := mem_map.1 ho
    obtain ⟨l', hl', rfl⟩ := mem_map.1 ho'
    obtain ⟨p, hp, hl⟩ := mem_filterMap.1 hl
    rw [h.posOf_label hp hl, h.posOf_stop (Option.mem_toList.1 hl'), UInt16.lt_iff_toNat_lt, h.toNat_pc hp, h.toNat_length]
    exact h.before p hp

end LaidOut

/-! ## Instructions and references -/

variable (c) in
theorem filterMap_insn? : c.events.filterMap RawCode.insn? = c.steps.map CodeStep.insn := by
  have hstep : ∀ s : CodeStep, s.events.filterMap RawCode.insn? = [s.insn] := by
    rintro ⟨_ | l, _ | f, i⟩ <;> 
      simp [CodeStep.events, filterMap_cons, filterMap_map, Function.comp_def, RawCode.insn?]
  simp only [events, filterMap_append, filterMap_flatMap, hstep, filterMap_map]
  simp [filterMap_cons, Function.comp_def, RawCode.insn?, map_eq_flatMap]

variable (c) in
def references : List Label :=
  c.steps.flatMap (fun s => s.insn.targets) ++ c.tryCatches.flatMap (fun t => [t.start, t.stop, t.handler])
    ++ c.steps.flatMap (fun s => s.frame.toList.flatMap Frame.labels) ++ (c.steps.flatMap CodeStep.lines).map Prod.snd
    ++ c.locals.flatMap (fun v => [v.start, v.stop]) ++ c.types.flatMap fun a => a.2.target.labels

theorem mem_references {e : CodeEvent} (he : e ∈ c.events) {l : Label} (hne : e ≠ .label l) (hl : l ∈ e.labels) :
    l ∈ c.references := by
  simp only [events, mem_append, mem_map, mem_flatMap, CodeStep.mem_events, mem_singleton] at he
  simp only [references, mem_append, mem_flatMap, mem_map]
  rcases he with ((((⟨t, ht, rfl⟩ | ⟨s, hs, ⟨l', hl', rfl | ⟨line, hline, rfl⟩⟩ | ⟨f, hf, rfl⟩ | rfl⟩) | ⟨l', -, rfl⟩)
    | ⟨v, hv, rfl⟩) | ⟨a, ha, rfl⟩) | rfl
  · exact .inl (.inl (.inl (.inl (.inr ⟨t, ht, hl⟩))))
  · obtain rfl := mem_singleton.1 hl
    exact absurd rfl hne
  · obtain rfl := mem_singleton.1 hl
    exact .inl (.inl (.inr ⟨_, ⟨s, hs, mem_flatMap.2 ⟨l', Option.mem_toList.2 hl', mem_map_of_mem hline⟩⟩, rfl⟩))
  · exact .inl (.inl (.inl (.inr ⟨s, hs, f, Option.mem_toList.2 hf, hl⟩)))
  · exact .inl (.inl (.inl (.inl (.inl ⟨s, hs, hl⟩))))
  · obtain rfl := mem_singleton.1 hl
    exact absurd rfl hne
  · exact .inl (.inr ⟨v, hv, hl⟩)
  · exact .inr ⟨a, ha, hl⟩
  · cases hl

/-! ## The code that is read -/

section
variable (h : c.LaidOut layout ps) (hc : c.Canonical)

section
include h hc

theorem raw_insns (hshort : layout.StaysShort) :
    layout.raw = ps.map fun p => (UInt16.ofNat p.pc, p.step.insn.map layout.posOf) := by
  rw [h.raw, ← flatMap_singleton' (ps.map _), flatMap_map]
  refine flatMap_congr fun p hp => ?_
  have hs : p.step ∈ c.steps := h.steps ▸ mem_map_of_mem hp
  rw [rawInsns_of_short (h.short.1 hshort p hp), Insn.normal_of_isPlain (hc.insns p.step hs)]

theorem raw_frames : layout.frames.map (rawFrame layout) =
    ps.filterMap fun p => p.step.frame.map fun f => (UInt16.ofNat p.pc, f.map layout.posOf) := by
  rw [h.frames, map_filterMap]
  refine filterMap_congr fun p hp => ?_
  have hs : p.step ∈ c.steps := h.steps ▸ mem_map_of_mem hp
  cases hf : p.step.frame with
  | none => rfl
  | some f =>
    simp only [Option.map_some, rawFrame, hc.frames p.step hs f hf]

end

theorem raw_types (hc : c.Canonical) : (layout.rawTypes c.types true).map (fun a => (true, a))
      ++ (layout.rawTypes c.types false).map (fun a => (false, a)) = c.types.map fun a => (a.1, a.2.map layout.posOf) := by
  conv_rhs => rw [← byVisibility_of_visibleFirst hc.types, byVisibility]
  simp only [Layout.rawTypes, map_append, map_map, Function.comp_def]

variable (c layout ps) in
def rawOf : RawCode where
  maxStack := c.maxs.1
  maxLocals := c.maxs.2
  length := UInt16.ofNat layout.length
  insns := ps.map fun p => (UInt16.ofNat p.pc, p.step.insn.map layout.posOf)
  tryCatches := c.tryCatches.map layout.rawTryCatch
  frames := ps.filterMap fun p => p.step.frame.map fun f => (UInt16.ofNat p.pc, f.map layout.posOf)
  lines := (c.steps.flatMap CodeStep.lines).map layout.rawLine
  locals := c.locals.map layout.rawVariable
  signatures := c.locals.filterMap fun v => v.signature.map fun signature => (layout.variableKey v, signature)
  typeAnnotations := c.types.map fun a => (a.1, a.2.map layout.posOf)

include h hc in
theorem raw_eq (hshort : layout.StaysShort) : (Body.ofEvents c.events).raw layout c.maxs = c.rawOf layout ps := by
  simp only [Body.raw, rawOf, ofEvents_events, raw_insns h hc hshort, raw_frames h hc, raw_types hc, Body.signed,
    map_filterMap, Option.map_map, Function.comp_def]

include h in
theorem references_rawOf : (c.rawOf layout ps).references = c.references.map layout.posOf := by
  have hframes : (ps.filterMap fun p => p.step.frame.map fun f => (UInt16.ofNat p.pc, f.map layout.posOf)).flatMap
      (fun f => f.2.labels) = ps.flatMap fun p => p.step.frame.toList.flatMap fun f => f.labels.map layout.posOf := by
    rw [filterMap_eq_flatMap_toList, flatMap_assoc]
    refine flatMap_congr fun p _ => ?_
    cases p.step.frame with
    | none => rfl
    | some f => simp [Frame.labels_map]
  simp only [RawCode.references, rawOf, references, ← h.steps, map_append, map_flatMap, flatMap_map,
    Insn.targets_map, map_map, Function.comp_def, TypeTarget.labels_map, TypeAnnotation.map, hframes]
  rfl

end

/-! ## Labels -/

section
variable (h : c.LaidOut layout ps) (hc : c.Canonical) (hd : ∀ l ∈ c.references, layout.Defines l) {p : PlacedStep}
  {l : Label} {v : LocalVariable}
include h hc hd

theorem labelOffsets_rawOf : (c.rawOf layout ps).labelOffsets = c.defined.map layout.posOf := by
  have : Std.Antisymm (fun a b : UInt16 => a < b) := ⟨fun a b h h' => absurd h' (UInt16.lt_asymm h)⟩
  have : Std.Irrefl (fun a b : UInt16 => a < b) := ⟨fun a => UInt16.lt_irrefl a⟩
  refine (RawCode.pairwise_labelOffsets _).eq_of_mem_iff h.pairwise_posOf fun o => ?_
  rw [RawCode.mem_labelOffsets, references_rawOf h, mem_map, mem_map]
  constructor
  · rintro ⟨l, hl, rfl⟩
    exact ⟨l, h.mem_defined.2 (hd l hl), rfl⟩
  · rintro ⟨l, hl, rfl⟩
    obtain ⟨e, he, hne, hm⟩ := hc.used l hl
    exact ⟨l, mem_references he hne hm, rfl⟩

theorem getElem?_labels {o : UInt16} :
    (c.rawOf layout ps).labels[o]? = some l ↔ l ∈ c.defined ∧ layout.posOf l = o := by
  have hnumber : ∀ (i : Nat) (l : Label), c.defined[i]? = some l → l = ⟨UInt32.ofNat i⟩ := by
    intro i l hl
    have hi := (List.getElem?_eq_some_iff.1 hl).1
    rw [hc.numbered, Label.firsts, List.getElem?_map, List.getElem?_range hi] at hl
    exact (Option.some.inj hl).symm
  rw [RawCode.getElem?_labels, labelOffsets_rawOf h hc hd]
  constructor
  · rintro ⟨i, hi, rfl⟩
    rw [getElem?_map] at hi
    obtain ⟨l, hl, rfl⟩ := Option.map_eq_some_iff.1 hi
    rw [← hnumber i l hl]
    exact ⟨mem_of_getElem? hl, rfl⟩
  · rintro ⟨hl, rfl⟩
    obtain ⟨i, hi⟩ := mem_iff_getElem?.1 hl
    exact ⟨i, by rw [getElem?_map, hi]; rfl, hnumber i l hi⟩

theorem labelAt_posOf (hl : l ∈ c.references) : RawCode.labelAt (c.rawOf layout ps).labels (layout.posOf l) = l := by
  rw [RawCode.labelAt, (getElem?_labels h hc hd).2 ⟨h.mem_defined.2 (hd l hl), rfl⟩]
  rfl

theorem getElem?_labels_pc (hp : p ∈ ps) :
    (c.rawOf layout ps).labels[UInt16.ofNat p.pc]? = p.step.label.map Prod.fst := by
  cases hl : p.step.label.map Prod.fst with
  | some l =>
    refine (getElem?_labels h hc hd).2 ⟨h.mem_defined.2 ⟨_, (h.labels l p.pc).2 (.inl ⟨p, hp, hl, rfl⟩)⟩,
      h.posOf_label hp hl⟩
  | none =>
    refine Option.eq_none_iff_forall_ne_some.2 fun l hs => ?_
    obtain ⟨hm, ho⟩ := (getElem?_labels h hc hd).1 hs
    obtain ⟨n, hn⟩ := h.mem_defined.1 hm
    rcases (h.labels l n).1 hn with ⟨q, hq, hql, -⟩ | ⟨hstop, -⟩
    · rw [h.posOf_label hq hql] at ho
      rw [h.pc_inj hq hp ho, hl] at hql
      cases hql
    · rw [h.posOf_stop hstop] at ho
      have := congrArg UInt16.toNat ho
      rw [h.toNat_length, h.toNat_pc hp] at this
      exact absurd (h.before p hp) (by omega)

theorem getElem?_labels_length : (c.rawOf layout ps).labels[UInt16.ofNat layout.length]? = c.stop := by
  cases hl : c.stop with
  | some l => exact (getElem?_labels h hc hd).2 ⟨h.mem_defined.2 ⟨_, (h.labels l _).2 (.inr ⟨hl, rfl⟩)⟩, h.posOf_stop hl⟩
  | none =>
    refine Option.eq_none_iff_forall_ne_some.2 fun l hs => ?_
    obtain ⟨hm, ho⟩ := (getElem?_labels h hc hd).1 hs
    obtain ⟨n, hn⟩ := h.mem_defined.1 hm
    rcases (h.labels l n).1 hn with ⟨q, hq, hql, -⟩ | ⟨hstop, -⟩
    · rw [h.posOf_label hq hql] at ho
      have := congrArg UInt16.toNat ho
      rw [h.toNat_length, h.toNat_pc hq] at this
      exact absurd (h.before q hq) (by omega)
    · rw [hl] at hstop
      cases hstop

/-! ## What stands before an instruction -/

omit hc hd in
theorem flatMap_of_pc {β : Type} {f : PlacedStep → List β} (hp : p ∈ ps)
    (hf : ∀ q ∈ ps, q ≠ p → f q = []) : ps.flatMap f = f p := by
  have hn : ps.Nodup := List.Nodup.of_map _ (h.ascending.imp fun hlt => Nat.ne_of_lt hlt)
  obtain ⟨as, bs, rfl⟩ := append_of_mem hp
  have hne : ∀ q ∈ as ++ bs, q ≠ p := by
    rintro q hq rfl
    exact (nodup_middle.1 hn).notMem hq
  rw [forall_mem_append] at hne
  rw [flatMap_append, flatMap_cons, flatMap_eq_nil_iff.2 fun q hq => hf q (by simp [hq]) (hne.1 q hq),
    flatMap_eq_nil_iff.2 fun q hq => hf q (by simp [hq]) (hne.2 q hq), nil_append, append_nil]

omit hc hd in
theorem getElem?_framesAt (hp : p ∈ ps) :
    (c.rawOf layout ps).framesAt[UInt16.ofNat p.pc]? = p.step.frame.map fun f => f.map layout.posOf := by
  have hframe : ∀ x ∈ (c.rawOf layout ps).frames, x.1 = UInt16.ofNat p.pc →
      p.step.frame.map (fun f => (UInt16.ofNat p.pc, f.map layout.posOf)) = some x := by
    intro x hx ho
    obtain ⟨q, hq, hx⟩ := mem_filterMap.1 hx
    obtain ⟨f, hf, rfl⟩ := Option.map_eq_some_iff.1 hx
    obtain rfl := h.pc_inj hq hp ho
    rw [hf]
    rfl
  refine RawCode.getElem?_foldl_insert_of_unique (fun x hx ho => ?_) fun hne => ?_
  · obtain ⟨f, hf, rfl⟩ := Option.map_eq_some_iff.1 (hframe x hx ho)
    rw [hf]
    rfl
  · obtain ⟨f, hf⟩ : ∃ f, p.step.frame = some f := Option.ne_none_iff_exists'.1 fun hf => hne (by rw [hf]; rfl)
    exact ⟨_, mem_filterMap.2 ⟨p, hp, by rw [hf]; rfl⟩, rfl⟩

omit hc hd in
theorem getD_linesAt (hp : p ∈ ps) {lines : List UInt16} (hl : p.step.label = some (l, lines)) :
    ((c.rawOf layout ps).linesAt[UInt16.ofNat p.pc]?.getD []).reverse = lines := by
  have hlines : ∀ q ∈ ps, ∀ x ∈ q.step.lines.map layout.rawLine, x.1 = UInt16.ofNat q.pc := by
    intro q hq x hx
    obtain ⟨line, hline, rfl⟩ := mem_map.1 hx
    obtain ⟨l, hl, hline⟩ := mem_flatMap.1 hline
    obtain ⟨n, -, rfl⟩ := mem_map.1 hline
    exact h.posOf_label hq (by rw [Option.mem_toList.1 hl]; rfl)
  rw [RawCode.getD_linesAt, reverse_reverse, rawOf]
  simp only [← h.steps, flatMap_map, map_flatMap, filter_flatMap]
  rw [flatMap_of_pc h hp fun q hq hne => map_eq_nil_iff.2 (filter_eq_nil_iff.2 fun x hx => ?_),
    filter_eq_self.2 fun x hx => beq_iff_eq.2 (hlines p hp x hx), CodeStep.lines, hl]
  · simp [Layout.rawLine, Function.comp_def]
  · rw [hlines q hq x hx, beq_iff_eq]
    exact fun he => hne (h.pc_inj hq hp he)

theorem insnEvents_rawOf (hp : p ∈ ps) :
    RawCode.insnEvents (c.rawOf layout ps).labels (c.rawOf layout ps).framesAt (c.rawOf layout ps).linesAt
      (UInt16.ofNat p.pc, p.step.insn.map layout.posOf) = p.step.events := by
  have hs : p.step ∈ c.steps := h.steps ▸ mem_map_of_mem hp
  have hinsn : (p.step.insn.map layout.posOf).map (RawCode.labelAt (c.rawOf layout ps).labels) = p.step.insn := by
    rw [Insn.map_map, Insn.map_congr fun l hl => labelAt_posOf h hc hd ?_, Insn.map_id]
    simp only [references, mem_append, mem_flatMap]
    exact .inl (.inl (.inl (.inl (.inl ⟨p.step, hs, hl⟩))))
  have hframe : ∀ f ∈ p.step.frame, (f.map layout.posOf).map (RawCode.labelAt (c.rawOf layout ps).labels) = f := by
    intro f hf
    rw [Frame.map_map, Frame.map_congr fun l hl => labelAt_posOf h hc hd ?_, Frame.map_id]
    simp only [references, mem_append, mem_flatMap]
    exact .inl (.inl (.inl (.inr ⟨p.step, hs, f, Option.mem_toList.2 hf, hl⟩)))
  rw [RawCode.insnEvents_eq, getElem?_labels_pc h hc hd hp, getElem?_framesAt h hp, CodeStep.events]
  congr 1
  · congr 1
    · cases hl : p.step.label with
      | none => rfl
      | some x =>
        obtain ⟨l, lines⟩ := x
        simp only [Option.map_some, Option.toList_some, flatMap_singleton, getD_linesAt h hp hl]
    · cases hf : p.step.frame with
      | none => rfl
      | some f =>
        simp only [Option.map_some, Option.toList_some, map_singleton, Frame.idRun_mapLabels, hframe f hf]
  · exact congrArg (fun i => [CodeEvent.insn i]) hinsn

/-! ## Tables -/

theorem tryCatchEvents_rawOf :
    (c.rawOf layout ps).tryCatchEvents (c.rawOf layout ps).labels = c.tryCatches.map CodeEvent.tryCatch := by
  rw [RawCode.tryCatchEvents, rawOf, map_map]
  refine map_congr_left fun t ht => ?_
  have hl : ∀ l ∈ [t.start, t.stop, t.handler], RawCode.labelAt (c.rawOf layout ps).labels (layout.posOf l) = l := by
    intro l hl
    refine labelAt_posOf h hc hd ?_
    simp only [references, mem_append, mem_flatMap]
    exact .inl (.inl (.inl (.inl (.inr ⟨t, ht, hl⟩))))
  simp only [forall_mem_cons] at hl
  obtain ⟨h₁, h₂, h₃, -⟩ := hl
  simp only [Function.comp_apply, Layout.rawTryCatch]
  rw [rawOf] at h₁ h₂ h₃
  rw [h₁, h₂, h₃]

theorem endEvents_rawOf : (c.rawOf layout ps).endEvents (c.rawOf layout ps).labels = c.stop.toList.map CodeEvent.label := by
  have hl := getElem?_labels_length h hc hd
  rw [RawCode.endEvents]
  have : (c.rawOf layout ps).length = UInt16.ofNat layout.length := rfl
  rw [this, hl]
  cases c.stop <;> rfl

theorem typeEvents_rawOf : (c.rawOf layout ps).typeEvents (c.rawOf layout ps).labels
    = c.types.map fun a => CodeEvent.annotateType a.1 a.2 := by
  have ht : ∀ a ∈ c.types, (a.2.map layout.posOf).map (RawCode.labelAt (c.rawOf layout ps).labels) = a.2 := by
    intro a ha
    rw [a.2.map_map, TypeAnnotation.map_congr fun l hl => labelAt_posOf h hc hd ?_, TypeAnnotation.map_id]
    simp only [references, mem_append, mem_flatMap]
    exact .inr ⟨a, ha, hl⟩
  have htypes : (c.rawOf layout ps).typeAnnotations = c.types.map fun a => (a.1, a.2.map layout.posOf) := rfl
  rw [RawCode.typeEvents, htypes, map_map]
  refine map_congr_left fun a ha => ?_
  simp only [Function.comp_apply, TypeAnnotation.idRun_mapLabels, ht a ha]

theorem labelAt_local (hv : v ∈ c.locals) :
    RawCode.labelAt (c.rawOf layout ps).labels (layout.posOf v.start) = v.start ∧
      RawCode.labelAt (c.rawOf layout ps).labels (layout.posOf v.stop) = v.stop := by
  have hl : ∀ l ∈ [v.start, v.stop], RawCode.labelAt (c.rawOf layout ps).labels (layout.posOf l) = l := by
    intro l hl
    refine labelAt_posOf h hc hd ?_
    simp only [references, mem_append, mem_flatMap]
    exact .inl (.inr ⟨v, hv, hl⟩)
  exact ⟨hl _ (by simp), hl _ (by simp)⟩

theorem variableKey_inj {u : LocalVariable} (hv : v ∈ c.locals) (hu : u ∈ c.locals)
    (he : layout.variableKey v = layout.variableKey u) : v = u := by
  refine inj_on_of_nodup_map hc.locals hv hu ?_
  simp only [Layout.variableKey, Prod.mk.injEq] at he
  obtain ⟨hstart, hstop, hindex, hname⟩ := he
  rw [hstart, UInt16.sub_left_inj] at hstop
  obtain ⟨hv₁, hv₂⟩ := labelAt_local h hc hd hv
  obtain ⟨hu₁, hu₂⟩ := labelAt_local h hc hd hu
  rw [LocalVariable.key, LocalVariable.key, ← hv₁, ← hv₂, hstart, hstop, hu₁, hu₂, hindex, hname]

theorem signaturesOf_rawOf (hv : v ∈ c.locals) :
    (c.rawOf layout ps).signaturesOf[(layout.rawVariable v).key]? = v.signature := by
  refine RawCode.getElem?_foldl_insert_of_unique (fun x hx hk => ?_) fun hne => ?_
  · obtain ⟨u, hu, hx⟩ := mem_filterMap.1 hx
    obtain ⟨signature, hs, rfl⟩ := Option.map_eq_some_iff.1 hx
    rw [← variableKey_inj h hc hd hu hv hk, hs]
  · obtain ⟨signature, hs⟩ := Option.ne_none_iff_exists'.1 hne
    exact ⟨_, mem_filterMap.2 ⟨v, hv, by rw [hs]; rfl⟩, rfl⟩

theorem variableEvents_rawOf : RawCode.variableEvents (c.rawOf layout ps).labels (c.rawOf layout ps).signaturesOf []
    (c.rawOf layout ps).locals = c.locals.map CodeEvent.localVariable := by
  have hlocals : (c.rawOf layout ps).locals = c.locals.map layout.rawVariable := rfl
  have hn : ((c.locals.map layout.rawVariable).map RawVariable.key).Nodup := by
    rw [map_map]
    exact (List.Nodup.of_map _ hc.locals).map_on fun v hv u hu he => variableKey_inj h hc hd hv hu he
  rw [hlocals, RawCode.variableEvents_of_nodup _ hn, reverse_nil, nil_append, map_map]
  refine map_congr_left fun v hv => ?_
  obtain ⟨hstart, hstop⟩ := labelAt_local h hc hd hv
  rw [Function.comp_apply, signaturesOf_rawOf h hc hd hv]
  simp only [Layout.rawVariable, hstart, hstop]

theorem events_rawOf (he : (c.rawOf layout ps).events = .ok code) : code = c.events := by
  obtain ⟨_, -, he⟩ := bind_eq_ok.1 he
  cases he
  have hinsns : (c.rawOf layout ps).insns.flatMap (RawCode.insnEvents (c.rawOf layout ps).labels (c.rawOf layout ps).framesAt
      (c.rawOf layout ps).linesAt) = c.steps.flatMap CodeStep.events := by
    have hi : (c.rawOf layout ps).insns = ps.map fun p => (UInt16.ofNat p.pc, p.step.insn.map layout.posOf) := rfl
    rw [hi, ← h.steps, flatMap_map, flatMap_map]
    exact flatMap_congr fun p hp => insnEvents_rawOf h hc hd hp
  rw [tryCatchEvents_rawOf h hc hd, hinsns, endEvents_rawOf h hc hd, variableEvents_rawOf h hc hd, typeEvents_rawOf h hc hd]
  rfl

end

/-! ## The result -/

variable {access : UInt16} {descriptor : String} {maxs : UInt16 × UInt16} {code : List CodeEvent}

theorem defines_of_readBack (hc : c.Canonical) (h : (Body.ofEvents c.events).ReadBack access descriptor P layout maxs code) :
    ∀ l ∈ c.references, layout.Defines l := by
  intro l hl
  refine h.defined l ?_
  rw [ofEvents_events]
  simp only [references, mem_append] at hl
  have hitem : ∀ s ∈ c.steps, ∀ item ∈ s.items, l ∈ item.references →
      l ∈ (c.steps.flatMap CodeStep.items ++ c.stop.toList.map Item.label).flatMap Item.references :=
    fun s hs item hi hl => mem_flatMap.2 ⟨item, mem_append_left _ (mem_flatMap.2 ⟨s, hs, hi⟩), hl⟩
  simp only [Body.references, mem_append]
  rcases hl with ((((hl | hl) | hl) | hl) | hl) | hl
  · obtain ⟨s, hs, hl⟩ := mem_flatMap.1 hl
    exact .inl (.inl (.inl (.inl (hitem s hs (.insn s.insn) (by simp [CodeStep.items]) hl))))
  · exact .inl (.inl (.inl (.inr hl)))
  · obtain ⟨s, hs, hl⟩ := mem_flatMap.1 hl
    obtain ⟨f, hf, hl⟩ := mem_flatMap.1 hl
    have hf := Option.mem_toList.1 hf
    rw [← hc.frames s hs f hf] at hl
    exact .inl (.inl (.inl (.inl (hitem s hs (.frame f) (by simp [CodeStep.items, Option.mem_def.1 hf]) hl))))
  · exact .inl (.inl (.inr hl))
  · exact .inl (.inr hl)
  · exact .inr hl

/-- **Code in canonical form is read as it was written exactly if no conditional jump was made wide.** -/
theorem readBack_eq_iff (hc : c.Canonical) (h : (Body.ofEvents c.events).ReadBack access descriptor P layout maxs code) :
    code = c.events ↔ layout.StaysShort := by
  obtain ⟨ps, hps⟩ := exists_laidOut h.fits
  have hmaxs : maxs = c.maxs := by
    have hm := h.maxs_eq
    rw [Body.maxsOf, ofEvents_events] at hm
    exact (Except.ok.inj hm).symm
  constructor
  · rintro rfl
    -- As many instructions are read as there are, so that each one is read as a single one.
    have hinsns := congrArg List.length (RawCode.filterMap_insn? h.events_eq)
    rw [filterMap_insn?, length_map, Body.raw, hps.raw, length_map, ← hps.steps, length_map] at hinsns
    rw [hps.short]
    intro p hp
    refine (length_rawInsns layout p.pc).2 ?_
    exact eq_one_of_length_flatMap (fun p _ => (length_rawInsns layout p.pc).1) hinsns.symm p hp
  · intro hshort
    have he := h.events_eq
    rw [hmaxs, raw_eq hps hc hshort] at he
    exact events_rawOf hps hc (defines_of_readBack hc h) he

end CodeForm

end ClassDoc
