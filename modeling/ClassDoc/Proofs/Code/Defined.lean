/-
  The labels of code that was written.
-/
import ClassDoc.Proofs.Code.Attribute
namespace ClassDoc

open List

variable {α β : Type} {layout : Layout} {p q : Pool} {bytes : Bytes} {i : Insn Label} {xs : List α}

/-! ## What was done for each element -/

theorem exists_of_mem_encodeList {encode : α → PoolM Bytes}
    (h : encodeList encode xs p = .ok bytes q) {x : α} (hx : x ∈ xs) : ∃ b p' q', encode x p' = .ok b q' := by
  obtain ⟨count, r, -, h⟩ := run_bind_eq_ok.1 h
  obtain ⟨parts, r', hparts, -⟩ := run_bind_eq_ok.1 h
  exact exists_of_mem_run_mapM hparts hx

theorem exists_of_makeIf {name : String} {body : PoolM Bytes} {attributes : List Attribute}
    (h : Attribute.makeIf true name body p = .ok attributes q) : ∃ b p' q', body p' = .ok b q' := by
  obtain ⟨attr, r, h, -⟩ := run_bind_eq_ok.1 h
  obtain ⟨index, r', -, h⟩ := run_bind_eq_ok.1 h
  obtain ⟨b, r'', hb, -⟩ := run_bind_eq_ok.1 h
  exact ⟨b, r', r'', inPlace_eq_ok.1 hb⟩

/-! ## Positions of labels -/

namespace Layout

theorem defines_of_offset {l : Label} {o : UInt16} (h : layout.offset l = .ok o) : layout.Defines l :=
  ⟨_, (offset_eq_ok h).1⟩

theorem defines_of_distance {start : Nat} {l : Label} {d : Int} (h : layout.distance start l = .ok d) :
    layout.Defines l := by
  obtain ⟨n, hn, -⟩ := distance_eq_ok h
  exact ⟨n, hn⟩

theorem defines_of_emitDistance {pc : Nat} {l : Label} (h : emitDistance layout pc l = .ok bytes) :
    layout.Defines l := by
  obtain ⟨d, hd, -⟩ := bind_eq_ok.1 h
  exact defines_of_distance hd

end Layout

/-! ## Instructions -/

open Layout in
theorem Insn.defines_of_emit {pc : Nat} {wide : Bool}
    (h : i.emit layout pc wide p = .ok bytes q) : ∀ l ∈ i.targets, layout.Defines l := by
  cases i with
  | jump op target =>
    obtain ⟨h, -⟩ := run_lift_eq_ok.1 h
    intro l hl
    obtain rfl := mem_singleton.1 hl
    unfold emitJump at h
    split at h
    · exact nomatch h
    split at h
    · obtain ⟨d, hd, -⟩ := bind_eq_ok.1 h
      exact defines_of_distance hd
    split at h
    · obtain ⟨d, hd, -⟩ := bind_eq_ok.1 h
      exact defines_of_emitDistance hd
    split at h
    · exact nomatch h
    · obtain ⟨d, hd, -⟩ := bind_eq_ok.1 h
      exact defines_of_emitDistance hd
  | tableSwitch low high default targets =>
    obtain ⟨-, -, _, _, hd, ht, -⟩ := emitTable_eq_ok (run_lift_eq_ok.1 h).1
    intro l hl
    rcases mem_cons.1 hl with rfl | hl
    · exact defines_of_emitDistance hd
    · obtain ⟨_, -, hpart⟩ := exists_of_mem_mapM (mapM_eq_ok_iff.2 ht) hl
      exact defines_of_emitDistance hpart
  | lookupSwitch default pairs =>
    obtain ⟨_, _, _, hd, -, hp, -⟩ := emitLookup_eq_ok (run_lift_eq_ok.1 h).1
    intro l hl
    rcases mem_cons.1 hl with rfl | hl
    · exact defines_of_emitDistance hd
    · obtain ⟨pair, hpair, rfl⟩ := mem_map.1 hl
      obtain ⟨_, -, hpart⟩ := exists_of_mem_mapM (mapM_eq_ok_iff.2 hp) (mem_mergeSort.2 hpair)
      obtain ⟨_, hd, -⟩ := emitPair_eq_ok hpart
      exact defines_of_emitDistance hd
  | _ => exact fun l hl => nomatch hl

theorem Layout.defines_of_emit (h : layout.emit p = .ok bytes q) {x : Placed}
    (hx : x ∈ layout.items) (hi : x.item = .insn i) : ∀ l ∈ i.targets, layout.Defines l := by
  obtain ⟨parts, r, hparts, -⟩ := run_bind_eq_ok.1 h
  obtain ⟨b, s, t, hb⟩ := exists_of_mem_run_mapM hparts hx
  rw [Placed.emit, hi] at hb
  exact Insn.defines_of_emit (inPlace_eq_ok.1 hb)

/-! ## Frames -/

theorem VerificationType.defines_of_encode {t : VerificationType Label}
    (h : t.encode layout p = .ok bytes q) : ∀ l ∈ t.labels, layout.Defines l := by
  cases t with
  | uninitialized label =>
    intro l hl
    obtain rfl := mem_singleton.1 hl
    obtain ⟨o, r, ho, -⟩ := run_bind_eq_ok.1 h
    exact Layout.defines_of_offset (run_lift_eq_ok.1 ho).1
  | _ => exact fun l hl => nomatch hl

theorem defines_of_encodeTypes {ts : List (VerificationType Label)}
    (h : encodeTypes layout ts p = .ok bytes q) : ∀ t ∈ ts, ∀ l ∈ t.labels, layout.Defines l := by
  obtain ⟨parts, r, hparts, -⟩ := run_bind_eq_ok.1 h
  intro t ht
  obtain ⟨b, s, u, hb⟩ := exists_of_mem_run_mapM hparts ht
  exact VerificationType.defines_of_encode hb

theorem Frame.defines_of_encode {frame : Frame Label} {delta : UInt16}
    (h : frame.encode layout delta p = .ok bytes q) : ∀ l ∈ frame.trim.labels, layout.Defines l := by
  obtain ⟨kind, locals, stack⟩ := frame
  cases kind with
  | same | chop =>
    intro l hl
    cases hl
  | sameLocals1StackItem =>
    rw [Frame.encode] at h
    simp only at h
    split at h
    next t =>
      obtain ⟨b, r, hb, -⟩ := run_bind_eq_ok.1 h
      simpa [trim, labels] using VerificationType.defines_of_encode hb
    next => cases h
  | append =>
    rw [Frame.encode] at h
    simp only at h
    split at h
    next =>
      obtain ⟨b, r, hb, -⟩ := run_bind_eq_ok.1 h
      have := defines_of_encodeTypes hb
      simpa [trim, labels] using fun l t ht hl => this t ht l hl
    next => cases h
  | full =>
    obtain ⟨_, r, -, h⟩ := run_bind_eq_ok.1 h
    obtain ⟨_, r, hlocals, h⟩ := run_bind_eq_ok.1 h
    obtain ⟨_, r, -, h⟩ := run_bind_eq_ok.1 h
    obtain ⟨_, r, hstack, -⟩ := run_bind_eq_ok.1 h
    have h₁ := defines_of_encodeTypes hlocals
    have h₂ := defines_of_encodeTypes hstack
    intro l hl
    simp only [trim, labels, mem_append, mem_flatMap] at hl
    rcases hl with ⟨t, ht, hl⟩ | ⟨t, ht, hl⟩
    · exact h₁ t ht l hl
    · exact h₂ t ht l hl

theorem defines_of_encodeFrames {previous : Option Nat} {done parts : List Bytes} {fs : List (Nat × Frame Label)}
    (h : encodeFrames layout previous done fs p = .ok parts q) : ∀ f ∈ fs, ∀ l ∈ f.2.trim.labels, layout.Defines l := by
  induction fs generalizing previous done p with
  | nil =>
    intro f hf
    cases hf
  | cons f fs ih =>
    obtain ⟨offset, frame⟩ := f
    rw [encodeFrames] at h
    split at h
    · cases h
    obtain ⟨delta, r, -, h⟩ := run_bind_eq_ok.1 h
    obtain ⟨b, r', hb, h⟩ := run_bind_eq_ok.1 h
    intro f hf
    rcases mem_cons.1 hf with rfl | hf
    · exact Frame.defines_of_encode hb
    · exact ih h f hf

/-! ## Tables -/

theorem defines_of_encodeTryCatch {t : TryCatch} (h : Body.encodeTryCatch layout t p = .ok bytes q) :
    ∀ l ∈ [t.start, t.stop, t.handler], layout.Defines l := by
  obtain ⟨start, r, hstart, h⟩ := run_bind_eq_ok.1 h
  obtain ⟨stop, r', hstop, h⟩ := run_bind_eq_ok.1 h
  split at h
  · exact nomatch h
  obtain ⟨handler, r'', hhandler, -⟩ := run_bind_eq_ok.1 h
  simp only [forall_mem_cons]
  exact ⟨Layout.defines_of_offset (run_lift_eq_ok.1 hstart).1, Layout.defines_of_offset (run_lift_eq_ok.1 hstop).1,
    Layout.defines_of_offset (run_lift_eq_ok.1 hhandler).1, forall_mem_nil _⟩

theorem defines_of_encodeVariable {v : LocalVariable × String}
    (h : Body.encodeVariable layout v p = .ok bytes q) : ∀ l ∈ [v.1.start, v.1.stop], layout.Defines l := by
  obtain ⟨start, r, hstart, h⟩ := run_bind_eq_ok.1 h
  obtain ⟨stop, r', hstop, -⟩ := run_bind_eq_ok.1 h
  simp only [forall_mem_cons]
  exact ⟨Layout.defines_of_offset (run_lift_eq_ok.1 hstart).1, Layout.defines_of_offset (run_lift_eq_ok.1 hstop).1,
    forall_mem_nil _⟩

theorem defines_of_encodeType {P : Pool} {items : List Item} (hf : layout.Fits P items) {a : TypeAnnotation Label}
    (h : TypeAnnotation.encode (some layout.offset) a p = .ok bytes q) :
    ∀ l ∈ a.target.labels, layout.Defines l := by
  obtain ⟨_, r, -, h⟩ := run_bind_eq_ok.1 h
  obtain ⟨target, r', ht, -⟩ := run_bind_eq_ok.1 h
  obtain ⟨t', ht', -⟩ := decodes_target (Layout.within_offset hf.posOf_le) (run_lift_eq_ok.1 ht).1
  intro l hl
  obtain ⟨o, ho⟩ := TypeTarget.exists_of_mapLabels ht' l hl
  exact Layout.defines_of_offset ho

/-! ## Code -/

def Item.references : Item → List Label
  | label _ => []
  | frame f => f.trim.labels
  | insn i => i.targets

namespace Body

variable (body : Body) {descriptor : String} {access : UInt16}

def references : List Label :=
  body.items.flatMap Item.references ++ body.tryCatches.flatMap (fun t => [t.start, t.stop, t.handler])
    ++ body.lineNumbers.map Prod.snd ++ body.localVariables.flatMap (fun v => [v.start, v.stop])
    ++ body.typeAnnotations.flatMap fun a => a.2.target.labels

variable {body} {P : Pool}

theorem defined_of_attributes (hf : layout.Fits P body.items) {attributes : List Attribute}
    (h : body.attributes layout p = .ok attributes q) :
    (∀ f ∈ layout.frames, ∀ l ∈ f.2.trim.labels, layout.Defines l) ∧ (∀ line ∈ body.lineNumbers, layout.Defines line.2) ∧
      (∀ v ∈ body.localVariables, ∀ l ∈ [v.start, v.stop], layout.Defines l) ∧
      ∀ a ∈ body.typeAnnotations, ∀ l ∈ a.2.target.labels, layout.Defines l := by
  obtain ⟨_, _, hframes, h⟩ := run_bind_eq_ok.1 h
  obtain ⟨_, _, hlines, h⟩ := run_bind_eq_ok.1 h
  obtain ⟨_, _, hlocals, h⟩ := run_bind_eq_ok.1 h
  obtain ⟨_, _, -, h⟩ := run_bind_eq_ok.1 h
  obtain ⟨_, _, hvisible, h⟩ := run_bind_eq_ok.1 h
  obtain ⟨_, _, hinvisible, -⟩ := run_bind_eq_ok.1 h
  refine ⟨fun f hfm => ?_, fun line hline => ?_, fun v hv => ?_, fun a ha => ?_⟩
  · cases hc : body.items.any Item.isFrame with
    | false =>
      rw [hf.frames_eq_nil hc] at hfm
      exact nomatch hfm
    | true =>
      rw [hc] at hframes
      obtain ⟨_, _, _, hb⟩ := exists_of_makeIf hframes
      obtain ⟨_, _, -, hb⟩ := run_bind_eq_ok.1 hb
      obtain ⟨_, _, hb, -⟩ := run_bind_eq_ok.1 hb
      exact defines_of_encodeFrames hb f hfm
  · have hc : (!body.lineNumbers.isEmpty) = true := by simpa using ne_nil_of_mem hline
    rw [hc] at hlines
    obtain ⟨_, _, _, hb⟩ := exists_of_makeIf hlines
    obtain ⟨_, _, _, hb⟩ := exists_of_mem_encodeList hb hline
    obtain ⟨_, _, ho, -⟩ := run_bind_eq_ok.1 hb
    exact Layout.defines_of_offset (run_lift_eq_ok.1 ho).1
  · have hm : (v, v.descriptor) ∈ body.described := mem_map_of_mem hv
    have hc : (!body.described.isEmpty) = true := by simpa using ne_nil_of_mem hm
    rw [hc] at hlocals
    obtain ⟨_, _, _, hb⟩ := exists_of_makeIf hlocals
    obtain ⟨_, _, _, hb⟩ := exists_of_mem_encodeList hb hm
    exact defines_of_encodeVariable hb
  · have htypes : ∀ visible p attributes q, body.typesAttribute layout visible p = .ok attributes q →
        ∀ a ∈ withVisibility visible body.typeAnnotations, ∀ l ∈ a.target.labels, layout.Defines l := by
      intro visible p attributes q h a ha
      have hc : (!(withVisibility visible body.typeAnnotations).isEmpty) = true := by simpa using ne_nil_of_mem ha
      cases hm : body.missingCatch? visible with
      | some index =>
        rw [typesAttribute, hm] at h
        exact nomatch h
      | none =>
        rw [typesAttribute, hm, typeAnnotationsAttribute, hc] at h
        obtain ⟨_, _, _, hb⟩ := exists_of_makeIf h
        obtain ⟨_, _, _, hb⟩ := exists_of_mem_encodeList hb ha
        exact defines_of_encodeType hf hb
    obtain ⟨visible, a⟩ := a
    have hm : a ∈ withVisibility visible body.typeAnnotations := mem_filterMap.2 ⟨_, ha, by simp⟩
    cases visible with
    | true => exact htypes true _ _ _ hvisible a hm
    | false => exact htypes false _ _ _ hinvisible a hm

/-- **If the code can be written, its layout has a position for each label that it refers to.** -/
theorem defined_of_encode (hf : layout.Fits P body.items) (hlay : Layout.of body.items P = .ok layout P)
    (h : body.encode access descriptor P = .ok bytes q) :
    ∀ l ∈ body.references, layout.Defines l := by
  obtain ⟨_, _, hl, h⟩ := run_bind_eq_ok.1 h
  rw [hlay] at hl
  cases hl
  obtain ⟨_, _, hemit, h⟩ := run_bind_eq_ok.1 h
  obtain ⟨_, _, -, h⟩ := run_bind_eq_ok.1 h
  obtain ⟨_, _, -, h⟩ := run_bind_eq_ok.1 h
  obtain ⟨_, _, htry, h⟩ := run_bind_eq_ok.1 h
  obtain ⟨_, _, hattributes, -⟩ := run_bind_eq_ok.1 h
  obtain ⟨hframes, hlines, hlocals, htypes⟩ := defined_of_attributes hf hattributes
  intro l hl
  simp only [references, mem_append, mem_flatMap, mem_map] at hl
  rcases hl with (((⟨item, hitem, hl⟩ | ⟨t, ht, hl⟩) | ⟨line, hline, rfl⟩) | ⟨v, hv, hl⟩) | ⟨a, ha, hl⟩
  · rw [← hf.items_eq] at hitem
    obtain ⟨x, hx, rfl⟩ := mem_map.1 hitem
    cases hi : x.item with
    | label => rw [hi] at hl; exact nomatch hl
    | frame f => rw [hi] at hl; exact hframes _ (Layout.mem_frames hx hi) l hl
    | insn i => rw [hi] at hl; exact Layout.defines_of_emit hemit hx hi l hl
  · obtain ⟨_, _, _, hb⟩ := exists_of_mem_encodeList htry ht
    exact defines_of_encodeTryCatch hb l hl
  · exact hlines line hline
  · exact hlocals v hv l hl
  · exact htypes a ha l hl

theorem ReadBack.defined {maxs : UInt16 × UInt16} {events : List CodeEvent}
    (h : body.ReadBack access descriptor P layout maxs events) : ∀ l ∈ body.references, layout.Defines l := by
  obtain ⟨bytes, hb⟩ := h.written
  exact defined_of_encode h.fits h.layout_eq hb

end Body

end ClassDoc
