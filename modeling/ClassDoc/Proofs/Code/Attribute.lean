/-
  The code attribute of a method is read back.
-/
import ClassDoc.Proofs.Code.Raw
import ClassDoc.Proofs.Code.Tables
namespace ClassDoc

open List

/-! ## Where instructions start -/

theorem mem_rawInsns (layout : Layout) (pc : Nat) (wide : Bool) (i : Insn Label) :
    UInt16.ofNat pc ∈ (rawInsns layout pc wide i).map Prod.fst := by
  unfold rawInsns
  split
  next => split <;> simp
  next => simp

theorem InsnAt.mem_raw {layout : Layout} {n : Nat} (h : InsnAt layout.items n) :
    UInt16.ofNat n ∈ layout.raw.map Prod.fst := by
  obtain ⟨x, hx, ⟨i, hi⟩, rfl⟩ := h
  rw [Layout.raw, map_flatMap, mem_flatMap]
  refine ⟨x, hx, ?_⟩
  rw [Placed.raw, hi]
  exact mem_rawInsns layout x.offset x.wide i

namespace Layout

def Boundary (layout : Layout) (o : UInt16) : Prop :=
  o ∈ layout.raw.map Prod.fst ∨ o = UInt16.ofNat layout.length

theorem boundary_ofNat {layout : Layout} {n : Nat} (h : InsnAt layout.items n ∨ n = layout.length) :
    layout.Boundary (UInt16.ofNat n) :=
  h.imp InsnAt.mem_raw (congrArg UInt16.ofNat)

theorem mem_frames {layout : Layout} {x : Placed} {f : Frame Label} (hx : x ∈ layout.items)
    (hf : x.item = .frame f) : (x.offset, f) ∈ layout.frames :=
  mem_filterMap.2 ⟨x, hx, by rw [hf]⟩

namespace Fits

variable {P : Pool} {items : List Item} {layout : Layout} (h : layout.Fits P items) {f : Nat × Frame Label}
include h

theorem label_boundary (l : Label) : layout.Boundary (layout.posOf l) := by
  refine boundary_ofNat ?_
  cases hl : layout.labels[l]? with
  | none => exact h.laid.starts
  | some n =>
    obtain ⟨x, hx, -, rfl⟩ := (h.label_iff l n).1 hl
    obtain ⟨n, hn, -⟩ := h.laid.offset_add_le hx
    exact (h.laid.boundary hx hn).1

theorem target_boundary : ∀ r ∈ layout.raw, ∀ t ∈ r.2.targets, layout.Boundary t :=
  h.raw_targets h.label_boundary fun _ hx _ hn => boundary_ofNat (h.laid.boundary hx hn).2

theorem item_mem {x : Placed} (hx : x ∈ layout.items) : x.item ∈ items := h.items_eq ▸ mem_map_of_mem hx

omit h in
theorem placed_of_frame (hf : f ∈ layout.frames) : ∃ x ∈ layout.items, x.item = .frame f.2 ∧ x.offset = f.1 := by
  obtain ⟨x, hx, hxf⟩ := mem_filterMap.1 hf
  split at hxf
  next f' he =>
    obtain rfl := Option.some.inj hxf
    exact ⟨x, hx, he, rfl⟩
  next => exact nomatch hxf

theorem frame_start (hf : f ∈ layout.frames) (hlt : f.1 < layout.length) :
    UInt16.ofNat f.1 ∈ layout.raw.map Prod.fst := by
  obtain ⟨x, hx, -, ho⟩ := placed_of_frame hf
  obtain ⟨n, hn, -⟩ := h.laid.offset_add_le hx
  have hb := (h.laid.boundary hx hn).1
  rw [ho] at hb
  exact (hb.resolve_right (Nat.ne_of_lt hlt)).mem_raw

theorem frame_mem (hf : f ∈ layout.frames) : .frame f.2 ∈ items := by
  obtain ⟨x, hx, hi, -⟩ := placed_of_frame hf
  exact hi ▸ h.item_mem hx

theorem frames_eq_nil (hn : items.any Item.isFrame = false) : layout.frames = [] := by
  refine eq_nil_iff_forall_not_mem.2 fun f hf => ?_
  exact any_eq_false.1 hn _ (h.frame_mem hf) rfl

end Fits

end Layout

/-! ## The code -/

theorem Consumes.readCode {V : PoolView} {bytes : Bytes} {raw : RawCode} {events : List CodeEvent}
    (h : Consumes (readRawCode V) bytes [] (· = raw)) (he : raw.events = .ok events) :
    Consumes (ClassDoc.readCode V) bytes (events.map .code) fun _ => True := by
  refine h.bind_nil fun _ hr => ?_
  subst hr
  exact .lift_bind he (.emitAll _ _)

theorem PutsIn.same {α : Type} {full : Bool} {x : PoolM α} {Q : Pool → PoolView → α → Prop} (h : PutsIn full x Q) :
    PutsIn full x fun P _ a => x P = .ok a P := by
  intro p a q hp hx
  have s := h hp hx
  exact { s with seen := fun P _ hP hle _ => s.again P hP hle }

namespace Body

variable (body : Body) (layout : Layout) (maxs : UInt16 × UInt16)

/-- The code with positions in place of labels, as it is read. -/
def raw : RawCode where
  maxStack := maxs.1
  maxLocals := maxs.2
  length := UInt16.ofNat layout.length
  insns := layout.raw
  tryCatches := body.tryCatches.map layout.rawTryCatch
  frames := layout.frames.map (rawFrame layout)
  lines := body.lineNumbers.map layout.rawLine
  locals := body.localVariables.map layout.rawVariable
  signatures := body.signed.map fun v => (layout.variableKey v.1, v.2)
  typeAnnotations := (layout.rawTypes body.typeAnnotations true).map (fun a => (true, a))
    ++ (layout.rawTypes body.typeAnnotations false).map (fun a => (false, a))

variable {layout} {P : Pool}

theorem ofParts_parts (hf : layout.Fits P body.items) :
    RawCode.ofParts maxs.1 maxs.2 (UInt16.ofNat layout.length) layout.raw (body.tryCatches.map layout.rawTryCatch)
      (body.parts layout) = body.raw layout maxs := by
  have hlocals : body.described.isEmpty = body.localVariables.isEmpty := by simp [described]
  simp only [RawCode.ofParts, raw, parts, hlocals, flatMap_append, flatMap_ite, ite_self, append_nil,
    nil_append, RawCode.mk.injEq, true_and, Layout.rawTypes]
  refine ⟨?_, ?_, ?_, ?_, ?_⟩
  · cases hn : body.items.any Item.isFrame with
    | true => rfl
    | false => rw [hf.frames_eq_nil hn]; rfl
  · exact ite_isEmpty _ (List.map _) rfl
  · exact ite_isEmpty _ (List.map _) rfl
  · exact ite_isEmpty _ (List.map _) rfl
  · congr 1
    · exact ite_isEmpty _ (fun l => (l.map _).map _) rfl
    · exact ite_isEmpty _ (fun l => (l.map _).map _) rfl

theorem raw_references (hf : layout.Fits P body.items) : ∀ o ∈ (body.raw layout maxs).references, layout.Boundary o := by
  have hb := hf.label_boundary
  have htypes : ∀ visible, ∀ a ∈ layout.rawTypes body.typeAnnotations visible, ∀ o ∈ a.target.labels,
      layout.Boundary o := by
    intro visible a ha o ho
    obtain ⟨a, -, rfl⟩ := mem_map.1 ha
    obtain ⟨l, -, rfl⟩ := mem_map.1 (TypeTarget.labels_map a.target ▸ ho)
    exact hb l
  intro o ho
  simp only [RawCode.references, raw, mem_append, mem_flatMap, mem_map] at ho
  rcases ho with (((((⟨r, hr, ho⟩ | ⟨-, ⟨t, -, rfl⟩, ho⟩) | ⟨-, ⟨f, -, rfl⟩, ho⟩) | ⟨-, ⟨line, -, rfl⟩, rfl⟩)
    | ⟨-, ⟨v, -, rfl⟩, ho⟩) | ⟨-, ⟨a, ha, rfl⟩ | ⟨a, ha, rfl⟩, ho⟩)
  · exact hf.target_boundary r hr o ho
  · simp only [Layout.rawTryCatch, mem_cons, not_mem_nil, or_false] at ho
    rcases ho with rfl | rfl | rfl <;> exact hb _
  · rw [rawFrame, Frame.labels_map] at ho
    obtain ⟨l, -, rfl⟩ := mem_map.1 ho
    exact hb l
  · exact hb _
  · simp only [Layout.rawVariable, mem_cons, not_mem_nil, or_false] at ho
    rcases ho with rfl | rfl <;> exact hb _
  · exact htypes true a ha o ho
  · exact htypes false a ha o ho

theorem raw_check (hf : layout.Fits P body.items)
    (ha : body.items.any Item.isFrame = true → FramesAscend layout none layout.frames) :
    (body.raw layout maxs).check = .ok () := by
  refine RawCode.check_eq_ok _ (body.raw_references maxs hf) fun f h => ?_
  obtain ⟨f, hfm, rfl⟩ := mem_map.1 h
  refine hf.frame_start hfm ((ha ?_).2 f hfm)
  by_contra hn
  simp [hf.frames_eq_nil (Bool.eq_false_iff.2 hn)] at hfm

theorem raw_events (hf : layout.Fits P body.items)
    (ha : body.items.any Item.isFrame = true → FramesAscend layout none layout.frames) :
    ∃ events, (body.raw layout maxs).events = .ok events := by
  rw [RawCode.events, body.raw_check maxs hf ha]
  exact ⟨_, rfl⟩

/-- The events are what is read back of the code. -/
structure ReadBack (body : Body) (access : UInt16) (descriptor : String) (P : Pool) (layout : Layout)
    (maxs : UInt16 × UInt16) (events : List CodeEvent) : Prop where
  layout_eq : Layout.of body.items P = .ok layout P
  fits : layout.Fits P body.items
  ascend : body.items.any Item.isFrame = true → FramesAscend layout none layout.frames
  maxs_eq : body.maxsOf access descriptor = .ok maxs
  written : ∃ bytes, body.encode access descriptor P = .ok bytes P
  events_eq : (body.raw layout maxs).events = .ok events

variable {body}

theorem consumes_rawCode {V : PoolView} {code length tryBytes attrBytes : Bytes} {attributes : List Attribute}
    (hf : layout.Fits P body.items)
    (hlength : Bytes.count4 code.length = .ok length) (hlen : code.length = layout.length)
    (hcode : decodeInsns V code = .ok layout.raw)
    (htry : Decodes (Decode.list (decodeTryCatch V (UInt16.ofNat layout.length))) tryBytes
      (body.tryCatches.map layout.rawTryCatch))
    (hattr : Attribute.AllReadAs V (readCodePart V (UInt16.ofNat layout.length)) attributes (body.parts layout))
    (hbytes : Attribute.encodeAll attributes = .ok attrBytes) :
    Consumes (readRawCode V) (Bytes.u2 maxs.1 ++ Bytes.u2 maxs.2 ++ length ++ code ++ tryBytes ++ attrBytes)
      [] (· = body.raw layout maxs) := by
  obtain ⟨hd, hcount⟩ := count4_eq_ok hlength
  have hpos := hf.pos
  have hlt := hf.lt
  have hsize : (UInt32.ofNat code.length).toUInt16 = UInt16.ofNat layout.length := by
    rw [hlen]
    exact UInt32.toUInt16_ofNat
  simp only [append_assoc]
  refine .take_bind (decodes_u2 _) (.take_bind (decodes_u2 _) (.take_bind hd ?_))
  rw [if_neg ?_]
  · rw [hcount]
    refine .take_bind (decodes_bytes code) (.lift_bind hcode ?_)
    rw [hsize]
    refine .take_bind htry ((consumes_attributes hattr hbytes).bind_nil fun parts hp => ?_)
    rw [eq_of_exactly hp, body.ofParts_parts maxs hf]
    exact .pure rfl
  · rw [ge_iff_le, ← UInt32.toNat_inj, UInt32.le_iff_toNat_le, hcount, hlen]
    exact not_or.2 ⟨Nat.ne_of_gt hpos, Nat.not_le.2 hlt⟩

theorem putsIn_rawCode (access : UInt16) (descriptor : String) (hl : ∀ x ∈ body.items, x.loads = true) :
    PutsIn true (body.encode access descriptor) fun P V bytes =>
      ∃ layout maxs, Layout.of body.items P = .ok layout P ∧ layout.Fits P body.items ∧
        (body.items.any Item.isFrame = true → FramesAscend layout none layout.frames) ∧
        body.maxsOf access descriptor = .ok maxs ∧ Consumes (readRawCode V) bytes [] (· = body.raw layout maxs) := by
  have hlayout := putsIn_layout body.items hl
  refine (hlayout.and hlayout.same).bind_exists fun layout hex => ?_
  obtain ⟨P₀, -, hf₀, -⟩ := hex
  refine (putsIn_emitAll body.items hf₀.low hf₀.settled fun x hx => hl _ (hf₀.item_mem hx)).bind fun code => ?_
  refine (PutsIn.lift _).bind fun maxs => (PutsIn.lift _).bind fun length => ?_
  refine PutsIn.bind (puts_encodeList fun t _ => puts_tryCatch hf₀.posOf_le t) fun tryCatches => ?_
  refine PutsIn.bind (puts_attributes hf₀.posOf_le hf₀.lt) fun attributes => ?_
  refine (PutsIn.lift _).map fun P V parts hparts hattr htry hlength hmaxs hcode hlay => ?_
  obtain ⟨hlen, hdecode⟩ := hcode hlay.1
  exact ⟨layout, maxs, hlay.2, hlay.1, hattr.2, hmaxs,
    consumes_rawCode maxs hlay.1 hlength hlen hdecode htry hattr.1 hparts⟩

/-- **The code of a method is read back from its attribute.** -/
theorem putsIn_encode (access : UInt16) (descriptor : String) (hl : ∀ x ∈ body.items, x.loads = true) :
    PutsIn true (body.encode access descriptor) fun P V bytes =>
      ∃ layout maxs events, body.ReadBack access descriptor P layout maxs events ∧
        Consumes (readRawCode V) bytes [] (· = body.raw layout maxs) := by
  have hraw := putsIn_rawCode access descriptor hl
  refine (hraw.and hraw.same).mono ?_
  rintro P V bytes ⟨⟨layout, maxs, hlay, hfits, hascend, hmaxs, hread⟩, hwritten⟩
  obtain ⟨events, he⟩ := body.raw_events maxs hfits hascend
  exact ⟨layout, maxs, events, ⟨hlay, hfits, hascend, hmaxs, ⟨bytes, hwritten⟩, he⟩, hread⟩

/-! ## The instructions of some events -/

variable {events : List CodeEvent}

theorem mem_items_ofEvents {i : Insn Label} :
    .insn i ∈ (Body.ofEvents events).items ↔ .insn i ∈ events := by
  simp only [Body.ofEvents, mem_filterMap]
  constructor
  · rintro ⟨e, he, hi⟩
    cases e with
    | insn j =>
      cases hi
      exact he
    | _ => cases hi
  · exact fun h => ⟨_, h, rfl⟩

theorem loads_items (hl : ∀ i, .insn i ∈ events → i.loads = true) :
    ∀ x ∈ (Body.ofEvents events).items, x.loads = true := by
  intro x hx
  cases x with
  | insn i => exact hl i (Body.mem_items_ofEvents.1 hx)
  | label | frame => rfl

end Body

end ClassDoc
