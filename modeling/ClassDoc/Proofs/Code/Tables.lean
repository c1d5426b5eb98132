/-
  The tables of code are read back.
-/
import ClassDoc.Proofs.Attribute.Annotation
import ClassDoc.Proofs.Attribute.Read
import ClassDoc.Proofs.Code.Frames
import ClassDoc.Code.Attribute
namespace ClassDoc

variable {full : Bool} {layout : Layout} {length : UInt16}

/-! ## Lines, variables and ranges -/

namespace Layout

def rawTryCatch (layout : Layout) (t : TryCatch) : RawTryCatch :=
  ⟨layout.posOf t.start, layout.posOf t.stop, layout.posOf t.handler, t.catchType⟩

def rawLine (layout : Layout) (line : UInt16 × Label) : UInt16 × UInt16 := (layout.posOf line.2, line.1)

def rawVariable (layout : Layout) (v : LocalVariable) : RawVariable :=
  ⟨layout.posOf v.start, layout.posOf v.stop, v.name, v.descriptor, v.index⟩

def variableKey (layout : Layout) (v : LocalVariable) : VariableKey :=
  (layout.posOf v.start, layout.posOf v.stop - layout.posOf v.start, v.index, v.name)

end Layout

theorem puts_tryCatch (hle : ∀ l, layout.posOf l ≤ length) (t : TryCatch) :
    Puts full (Body.encodeTryCatch layout t) fun V bytes =>
      Decodes (decodeTryCatch V length) bytes (layout.rawTryCatch t) := by
  refine (Puts.lift _).bind fun start => (Puts.lift _).bind fun stop => ?_
  split
  next => exact PutsIn.throw _
  next =>
    refine (Puts.lift _).bind fun handler => (puts_optionalClass t.catchType).map fun V index hi hh ht hs => ?_
    obtain rfl := (Layout.offset_eq_ok hs).2
    obtain rfl := (Layout.offset_eq_ok ht).2
    obtain rfl := (Layout.offset_eq_ok hh).2
    simp only [List.append_assoc]
    refine (decodes_u2 _).bind ((decodes_u2 _).bind ((decodes_u2 _).bind ((decodes_index hi).bind_nil ?_)))
    exact .lift_bind (checkOffset_eq_ok (hle _)) (.lift_bind (checkOffset_eq_ok (hle _))
      (.lift_bind (checkOffset_eq_ok (hle _)) (.pure _)))

theorem puts_lines (hle : ∀ l, layout.posOf l ≤ length) (lines : List (UInt16 × Label)) :
    Puts full (encodeList (Body.encodeLineNumber layout) lines) fun _ bytes =>
      Decodes (decodeLines length) bytes (lines.map layout.rawLine) := by
  have h : ∀ line ∈ lines, Puts full (Body.encodeLineNumber layout line) fun _ bytes =>
      Decodes (decodePair Prod.mk) bytes (layout.rawLine line) := by
    refine fun line _ => (Puts.lift _).map fun V o ho => ?_
    obtain rfl := (Layout.offset_eq_ok ho).2
    exact (decodes_u2 _).bind (decodes_u2 _).map
  have hs : Puts full (encodeList (Body.encodeLineNumber layout) lines) fun _ bytes =>
      Decodes (Decode.list (decodePair Prod.mk)) bytes (lines.map layout.rawLine) := puts_encodeList h
  refine hs.mono fun V bytes hb => hb.bind_nil (Decodes.bind_nil (.forM fun line hl => ?_) (.pure _))
  obtain ⟨line, -, rfl⟩ := List.mem_map.1 hl
  exact .lift (checkOffset_eq_ok (hle _))

theorem puts_encodeVariable {β : Type} {decode : PoolView → Decode β} {v : LocalVariable × String} {b : β}
    (h : ∀ {V name type}, V.utf8 name = .ok v.1.name → V.utf8 type = .ok v.2 →
      layout.posOf v.1.start ≤ layout.posOf v.1.stop →
      Decodes (decode V) (Bytes.u2 (layout.posOf v.1.start)
        ++ (Bytes.u2 (layout.posOf v.1.stop - layout.posOf v.1.start) ++ (Bytes.u2 name ++ (Bytes.u2 type
        ++ Bytes.u2 v.1.index)))) b) :
    Puts full (Body.encodeVariable layout v) fun V bytes => Decodes (decode V) bytes b := by
  refine (Puts.lift _).bind fun start => (Puts.lift _).bind fun stop => ?_
  split
  next => exact PutsIn.throw _
  next hlt =>
    refine (puts_utf8 v.1.name).bind fun name => (puts_utf8 v.2).map fun V type ht hn hs hst => ?_
    obtain rfl := (Layout.offset_eq_ok hs).2
    obtain rfl := (Layout.offset_eq_ok hst).2
    simp only [List.append_assoc]
    exact h hn ht (UInt16.not_lt.1 hlt)

theorem puts_variables (hle : ∀ l, layout.posOf l ≤ length) (vs : List LocalVariable) :
    Puts full (encodeList (Body.encodeVariable layout) (vs.map fun v => (v, v.descriptor))) fun V bytes =>
      Decodes (decodeVariables V length) bytes (vs.map layout.rawVariable) := by
  have hs : Puts full (encodeList (Body.encodeVariable layout) (vs.map fun v => (v, v.descriptor))) fun V bytes =>
      Decodes (Decode.list (decodeVariable V)) bytes
        ((vs.map fun v => (v, v.descriptor)).map fun v => layout.rawVariable v.1) := by
    refine puts_encodeList fun p hp => puts_encodeVariable fun hn ht hst => ?_
    obtain ⟨v, -, rfl⟩ := List.mem_map.1 hp
    refine (decodes_u2 _).bind ((decodes_u2 _).bind (.lift_bind (rangeEnd_sub hst) ?_))
    exact (decodes_index hn).bind ((decodes_index ht).bind (decodes_u2 _).map)
  rw [List.map_map] at hs
  refine hs.mono fun V bytes hb => hb.bind_nil (Decodes.bind_nil (.forM fun v hv => ?_) (.pure _))
  obtain ⟨v, -, rfl⟩ := List.mem_map.1 hv
  exact .lift_bind (checkOffset_eq_ok (hle _)) (.lift (checkOffset_eq_ok (hle _)))

theorem puts_signatures (vs : List (LocalVariable × String)) :
    Puts full (encodeList (Body.encodeVariable layout) vs) fun V bytes =>
      Decodes (Decode.list (decodeVariableSignature V)) bytes (vs.map fun v => (layout.variableKey v.1, v.2)) :=
  puts_encodeList fun _ _ => puts_encodeVariable fun hn ht _ =>
    (decodes_u2 _).bind ((decodes_u2 _).bind ((decodes_index hn).bind ((decodes_index ht).bind (decodes_u2 _).map)))

/-! ## The attributes of code -/

def Layout.rawTypes (layout : Layout) (annotations : List (Bool × TypeAnnotation Label)) (visible : Bool) :
    List <| TypeAnnotation UInt16 :=
  (withVisibility visible annotations).map (·.map layout.posOf)

theorem Layout.within_offset (hle : ∀ l, layout.posOf l ≤ length) : Offsets.Within (some layout.offset) (some length) := by
  refine ⟨rfl, fun {l o n} ho hn => ?_⟩
  obtain rfl := (Layout.offset_eq_ok ho).2
  obtain rfl := Option.some.inj hn
  exact hle l

theorem puts_codeTypes (hle : ∀ l, layout.posOf l ≤ length) (as : List <| TypeAnnotation Label) :
    Puts full (encodeList (·.encode (some layout.offset)) as) fun V bytes =>
      Decodes (decodeTypes V (some length)) bytes (as.map (·.map layout.posOf)) := by
  refine (puts_typeAnnotations (Layout.within_offset hle) as).mono fun V bytes h => ?_
  obtain ⟨as', ha, hd⟩ := h
  rwa [mapM_eq_ok_map ha fun a a' h => TypeAnnotation.mapLabels_eq_ok (fun l o ho => (Layout.offset_eq_ok ho).2) h]

namespace Body

variable (body : Body)

def parts (layout : Layout) : List CodePart :=
  (if body.items.any Item.isFrame then [CodePart.frames (layout.frames.map (rawFrame layout))] else [])
    ++ (if !body.lineNumbers.isEmpty then [CodePart.lines (body.lineNumbers.map layout.rawLine)] else [])
    ++ (if !body.described.isEmpty then [CodePart.locals (body.localVariables.map layout.rawVariable)] else [])
    ++ (if !body.signed.isEmpty then
        [CodePart.signatures (body.signed.map fun v => (layout.variableKey v.1, v.2))] else [])
    ++ (if !(withVisibility true body.typeAnnotations).isEmpty then
        [CodePart.types true (layout.rawTypes body.typeAnnotations true)] else [])
    ++ (if !(withVisibility false body.typeAnnotations).isEmpty then
        [CodePart.types false (layout.rawTypes body.typeAnnotations false)] else [])

variable {body}

theorem puts_typesAttribute (hle : ∀ l, layout.posOf l ≤ length) (visible : Bool) :
    PutsAs full (fun V => readCodePart V length) (body.typesAttribute layout visible)
      (if !(withVisibility visible body.typeAnnotations).isEmpty then
        [CodePart.types visible (layout.rawTypes body.typeAnnotations visible)] else []) := by
  unfold typesAttribute
  split
  next => exact PutsIn.throw _
  next =>
    refine puts_makeIf_take (fun V => readCodePart V length) (fun _ _ => ?_) _ (puts_codeTypes hle _)
    cases visible <;> rfl

theorem puts_framesAttribute (hle : ∀ l, layout.posOf l ≤ length) (hlen : layout.length < 0x10000)
    (condition : Bool) :
    Puts full (Attribute.makeIf condition Attribute.stackMapTableName (encodeFrameTable layout)) fun V attributes =>
      Attribute.AllReadAs V (readCodePart V length) attributes
        (if condition then [CodePart.frames (layout.frames.map (rawFrame layout))] else []) ∧
      (condition = true → FramesAscend layout none layout.frames) := by
  have ht := @puts_frameTable full layout length hle hlen
  refine PutsIn.and (puts_makeIf (fun V => readCodePart V length) _ _ fun _ => ht.mono fun V bytes hb => ?_)
    (puts_makeIf_of condition (ht.mono fun V bytes hb => hb.2))
  exact .take_map hb.1 rfl

theorem puts_linesAttribute (hle : ∀ l, layout.posOf l ≤ length) (lines : List (UInt16 × Label)) (condition : Bool) :
    PutsAs full (fun V => readCodePart V length) (Attribute.makeIf condition Attribute.lineNumberTableName
        (encodeList (encodeLineNumber layout) lines))
      (if condition then [CodePart.lines (lines.map layout.rawLine)] else []) :=
  puts_makeIf_take (fun V => readCodePart V length) (fun _ _ => rfl) _ (puts_lines hle lines)

theorem puts_variablesAttribute (hle : ∀ l, layout.posOf l ≤ length) (condition : Bool) :
    PutsAs full (fun V => readCodePart V length) (Attribute.makeIf condition Attribute.localVariableTableName
        (encodeList (encodeVariable layout) body.described))
      (if condition then [CodePart.locals (body.localVariables.map layout.rawVariable)] else []) :=
  puts_makeIf_take (fun V => readCodePart V length) (fun _ _ => rfl) _ (puts_variables hle body.localVariables)

theorem puts_signaturesAttribute (length : UInt16) (condition : Bool) :
    PutsAs full (fun V => readCodePart V length) (Attribute.makeIf condition Attribute.localVariableTypeTableName
        (encodeList (encodeVariable layout) body.signed))
      (if condition then [CodePart.signatures (body.signed.map fun v => (layout.variableKey v.1, v.2))] else []) :=
  puts_makeIf_take (fun V => readCodePart V length) (fun _ _ => rfl) _ (puts_signatures body.signed)

/-- **The tables of the code are read back.** -/
theorem puts_attributes (hle : ∀ l, layout.posOf l ≤ length) (hlen : layout.length < 0x10000) :
    Puts full (body.attributes layout) fun V attributes =>
      Attribute.AllReadAs V (readCodePart V length) attributes (body.parts layout) ∧
        (body.items.any Item.isFrame = true → FramesAscend layout none layout.frames) := by
  refine (puts_framesAttribute hle hlen _).bind fun frames => (puts_linesAttribute hle _ _).bind fun lines =>
    (puts_variablesAttribute hle _).bind fun locals => (puts_signaturesAttribute length _).bind fun signatures =>
    (puts_typesAttribute hle true).bind fun visible => (puts_typesAttribute hle false).map
    fun V invisible h₆ h₅ h₄ h₃ h₂ h₁ => ⟨?_, h₁.2⟩
  exact ((((h₁.1.append h₂).append h₃).append h₄).append h₅).append h₆

end Body

end ClassDoc
