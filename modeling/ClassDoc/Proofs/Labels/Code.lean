/-
  The code of a method whose labels are in order.
-/
import ClassDoc.Proofs.ClassFile.Elements
import ClassDoc.Proofs.Code.Layout
import ClassDoc.Proofs.Labels.Attribute
namespace ClassDoc

open List

def CodeEvent.defined? : CodeEvent → Option Label
  | label l => some l
  | _ => none

/-- Labels are defined once, and those that are mentioned are defined. -/
structure WellLabelled (code : List CodeEvent) : Prop where
  nodup : (code.filterMap CodeEvent.defined?).Nodup
  defined : ∀ e ∈ code, ∀ l ∈ e.labels, l ∈ code.filterMap CodeEvent.defined?

namespace LabelSafe

variable {layout : Layout} {l default : Label} {items : List Item} {xs : List (Item × Bool)}
  {places : Std.HashMap Label Nat} {body : Body} (pc : Nat)

/-! ## Placing items -/

theorem position (h : layout.Defines l) : LabelSafe (layout.position l) := by
  obtain ⟨n, hn⟩ := h
  rw [Layout.position, hn]
  exact ok n

@[grind ←] theorem offset (h : layout.Defines l) : LabelSafe (layout.offset l) := by
  have := position h
  grind [Layout.offset]

@[grind ←] theorem distance (start : Nat) (h : layout.Defines l) : LabelSafe (layout.distance start l) := by
  have := position h
  grind [Layout.distance]

@[grind ←] theorem size (wide : Bool) (i : Insn Label) : LabelSafe (i.size pc wide) := by
  cases i <;> grind [Insn.size]

theorem place {x : Item × Bool} (h : ∀ l, x.1 = .label l → ¬layout.Defines l) : LabelSafe (layout.place x) := by
  obtain ⟨item, wide⟩ := x
  cases item with
  | label l =>
    have hl : layout.labels.contains l = false := by
      rw [Bool.eq_false_iff]
      intro hc
      rw [Std.HashMap.contains_eq_isSome_getElem?, Option.isSome_iff_exists] at hc
      exact h l rfl hc
    grind [Layout.place]
  | frame f => grind [Layout.place]
  | insn i => grind [Layout.place]

theorem foldl_place {start : Layout} (hn : ((xs.map Prod.fst).filterMap Item.label?).Nodup)
    (hs : ∀ l, .label l ∈ xs.map Prod.fst → ¬start.Defines l) : LabelSafe (xs.foldlM Layout.place start) := by
  induction xs generalizing start with
  | nil => exact pure _
  | cons x xs ih =>
    rw [foldlM_cons]
    refine bind_of (place fun l hl => hs l (by simp [hl])) fun s next t hx => ih ?_ fun l hl => ?_
    · rw [map_cons] at hn
      cases hx1 : x.1.label? with
      | none => rwa [filterMap_cons_none hx1] at hn
      | some l =>
        rw [filterMap_cons_some hx1] at hn
        exact hn.of_cons
    · obtain ⟨-, -, hlabel⟩ := (grows_place start x hx).2 t (.refl t)
      rintro ⟨n, hd⟩
      rcases (hlabel l n).1 hd with hd | ⟨hx1, -⟩
      · exact hs l (by simp [hl]) ⟨n, hd⟩
      · -- a label that is placed now does not come again
        have hd : (Item.label l).label? = some l := rfl
        rw [map_cons, hx1, filterMap_cons_some hd, nodup_cons] at hn
        exact hn.1 (mem_filterMap.2 ⟨_, hl, rfl⟩)

theorem round (h : ((xs.map Prod.fst).filterMap Item.label?).Nodup) : LabelSafe (Layout.round xs) :=
  bind (foldl_place h fun l _ hd => by simp [Layout.Defines] at hd) fun _ => pure _

def TargetsIn (items : List Item) (defined : Label → Prop) : Prop := ∀ i, .insn i ∈ items → ∀ l ∈ i.targets, defined l

theorem mustBeWide {x : Placed} (h : ∀ i, x.item = .insn i → ∀ l ∈ i.targets, layout.Defines l) :
    LabelSafe (layout.mustBeWide x) := by
  obtain ⟨item, wide, start⟩ := x
  cases item with
  | insn i =>
    cases i with
    | jump op target =>
      have := h _ rfl target (by simp [Insn.targets])
      grind [Layout.mustBeWide]
    | _ => exact ok _
  | _ => exact ok _

theorem widen (h : TargetsIn (layout.items.map Placed.item) layout.Defines) : LabelSafe layout.widen := by
  refine mapM _ fun x hx => bind (mustBeWide fun i hi => h i ?_) fun _ => pure _
  exact mem_map.2 ⟨x, hx, hi⟩

theorem settle (hn : (items.filterMap Item.label?).Nodup)
    (ht : TargetsIn items fun l => .label l ∈ items) (fuel : Nat) (hx : xs.map Prod.fst = items) :
    LabelSafe (Layout.settle fuel xs) := by
  induction fuel generalizing xs with
  | zero => exact round (hx ▸ hn)
  | succ fuel ih =>
    refine bind_of (round (hx ▸ hn)) fun s layout t hl => ?_
    have hp := (grows_round xs hl).2 t (.refl t)
    refine bind_of (lift (widen ?_)) fun _ ws _ hw => ?_
    · rw [hp.map_item, hx]
      exact fun i hm l hl => Layout.defines_of_mem hp.label_iff (by rw [hp.map_item, hx]; exact ht i hm l hl)
    · split
      · exact pure _
      · exact ih ((hp.fst_widen (run_lift_eq_ok.1 hw).1).trans hx)

theorem layoutOf (hn : (items.filterMap Item.label?).Nodup)
    (ht : TargetsIn items fun l => .label l ∈ items) : LabelSafe (Layout.of items) := by
  have hx : (items.map fun item => (item, false)).map Prod.fst = items := by simp [Function.comp_def]
  refine bind (settle hn ht items.length hx) fun layout => ?_
  split
  · exact throw rfl
  · exact pure layout

/-! ## Instructions -/

@[grind ←] theorem rejected {α : Type} {problem : WriteProblem} (h : (Fault.write problem).cause.isLabel = false) :
    LabelSafe (rejected problem : Except Fault α) := error h

@[grind ←] theorem emitDistance (h : layout.Defines l) : LabelSafe (emitDistance layout pc l) := by
  grind [ClassDoc.emitDistance]

@[grind ←] theorem emitPair {pair : Int32 × Label} (h : layout.Defines pair.2) :
    LabelSafe (emitPair layout pc pair) := by
  grind [ClassDoc.emitPair]

theorem emitJump (wide : Bool) (op : Opcode) {target : Label} (h : layout.Defines target) :
    LabelSafe (emitJump layout pc wide op target) := by
  grind [ClassDoc.emitJump]

theorem emitTable (low high : Int32) {targets : List Label} (hd : layout.Defines default)
    (ht : ∀ l ∈ targets, layout.Defines l) : LabelSafe (emitTable layout pc low high default targets) := by
  grind [ClassDoc.emitTable]

theorem emitLookup {pairs : List (Int32 × Label)} (hd : layout.Defines default)
    (hp : ∀ p ∈ pairs, layout.Defines p.2) : LabelSafe (emitLookup layout pc default pairs) := by
  have hs : ∀ p ∈ pairs.mergeSort fun a b => a.1 ≤ b.1, layout.Defines p.2 := fun p hm =>
    hp p (mem_mergeSort.1 hm)
  grind [ClassDoc.emitLookup]

theorem emitInsn (wide : Bool) {i : Insn Label} (h : ∀ l ∈ i.targets, layout.Defines l) :
    LabelSafe (i.emit layout pc wide) := by
  cases i with
  | jump op target => exact lift (emitJump pc wide op (h _ (by simp [Insn.targets])))
  | tableSwitch low high default targets =>
    exact lift (emitTable pc low high (h _ (by simp [Insn.targets])) fun l hl => h l (by simp [Insn.targets, hl]))
  | lookupSwitch default pairs =>
    refine lift (emitLookup pc (h _ (by simp [Insn.targets])) fun p hp => h _ ?_)
    exact mem_cons_of_mem _ (mem_map_of_mem hp)
  | int op v => grind [Insn.emit, emitInt]
  | var op index => grind [Insn.emit, emitVar]
  | method op owner name descriptor interface => grind [Insn.emit, emitMethod]
  | ldc constant => grind [Insn.emit, emitLdc]
  | _ => grind [Insn.emit]

theorem emitLayout (h : TargetsIn (layout.items.map Placed.item) layout.Defines) : LabelSafe layout.emit := by
  refine bind (mapM _ fun x hx => ?_) fun _ => pure _
  rw [Placed.emit]
  split
  next i hi => exact inPlace _ (emitInsn _ _ (h i (mem_map.2 ⟨x, hx, hi⟩)))
  next => exact pure _

/-! ## Frames -/

theorem encodeVerificationType {v : VerificationType Label} (h : ∀ l ∈ v.labels, layout.Defines l) :
    LabelSafe (v.encode layout) := by
  cases v with
  | uninitialized label =>
    have := h label (by simp [VerificationType.labels])
    grind [VerificationType.encode]
  | _ => grind [VerificationType.encode]

@[grind ←] theorem encodeTypes {types : List (VerificationType Label)}
    (h : ∀ l ∈ types.flatMap VerificationType.labels, layout.Defines l) : LabelSafe (encodeTypes layout types) :=
  bind (mapM _ fun v hv => encodeVerificationType fun l hl => h l (mem_flatMap.2 ⟨v, hv, hl⟩)) fun _ => pure _

theorem encodeFrame (delta : UInt16) {frame : Frame Label} (h : ∀ l ∈ frame.labels, layout.Defines l) :
    LabelSafe (frame.encode layout delta) := by
  rw [Frame.labels, forall_mem_append] at h
  obtain ⟨hl, hs⟩ := h
  have hv : ∀ v ∈ frame.stack, LabelSafe (v.encode layout) := fun v hv =>
    encodeVerificationType fun l hm => hs l (mem_flatMap.2 ⟨v, hv, hm⟩)
  have := encodeTypes hl
  have := encodeTypes hs
  obtain ⟨kind, locals, stack⟩ := frame
  cases kind with
  | sameLocals1StackItem =>
    rcases stack with _ | ⟨item, _ | ⟨_, _⟩⟩
    · exact throw rfl
    · have := hv item (by simp)
      grind [Frame.encode]
    · exact throw rfl
  | _ => grind [Frame.encode]

theorem encodeFrames (previous : Option Nat) (done : List Bytes) {frames : List (Nat × Frame Label)}
    (h : ∀ f ∈ frames, ∀ l ∈ f.2.labels, layout.Defines l) : LabelSafe (encodeFrames layout previous done frames) := by
  induction frames generalizing previous done with
  | nil => exact pure _
  | cons f frames ih =>
    have hd : LabelSafe (frameDelta previous f.1) := by cases previous <;> grind [frameDelta]
    have hf := fun delta => encodeFrame delta (h f (by simp))
    have hr := fun previous done => ih previous done fun g hg => h g (by simp [hg])
    grind [ClassDoc.encodeFrames]

def FramesIn (items : List Item) (defined : Label → Prop) : Prop := ∀ f, .frame f ∈ items → ∀ l ∈ f.labels, defined l

theorem encodeFrameTable (h : FramesIn (layout.items.map Placed.item) layout.Defines) :
    LabelSafe (encodeFrameTable layout) := by
  have hf : LabelSafe (ClassDoc.encodeFrames layout none [] layout.frames) := by
    refine encodeFrames none [] fun f hf => ?_
    obtain ⟨x, hx, hxf⟩ := mem_filterMap.1 hf
    split at hxf
    next g hg =>
      cases hxf
      exact h g (mem_map.2 ⟨x, hx, hg⟩)
    next => cases hxf
  grind [ClassDoc.encodeFrameTable]

/-! ## The stack -/

@[grind ←] theorem callEffect (descriptor : String) : LabelSafe (callEffect descriptor) := by grind [ClassDoc.callEffect]

@[grind ←] theorem stackEffect (i : Insn Label) : LabelSafe i.stackEffect := by
  cases i <;> grind [Insn.stackEffect]

theorem placeOf (h : ∃ n, places[l]? = some n) : LabelSafe (placeOf places l) := by
  obtain ⟨n, hn⟩ := h
  rw [ClassDoc.placeOf, hn]
  exact ok n

theorem deepest {items : Array Item}
    (h : TargetsIn items.toList fun l => ∃ n, places[l]? = some n) (fuel index : Nat) (depth : Int)
    (work : List (Nat × Int)) (visited : Array Bool) (max : Int) :
    LabelSafe (deepest items places fuel index depth work visited max) := by
  induction fuel generalizing index depth work visited max with
  | zero => exact ok _
  | succ fuel ih =>
    unfold ClassDoc.deepest
    have ht : ∀ i, items[index]? = some (.insn i) → LabelSafe (i.targets.mapM (ClassDoc.placeOf places)) := by
      intro i hi
      refine mapM _ fun l hl => placeOf (h i ?_ l hl)
      exact Array.mem_toList_iff.2 (Array.mem_of_getElem? hi)
    split
    · split
      · exact ok _
      · exact ih _ _ _ _ _
    · split
      next i hi =>
        have := ht i hi
        grind
      next => exact ih _ _ _ _ _

theorem foldl_of_mem {α σ : Type} {P : σ → Prop} {step : σ → α → σ} (keep : ∀ s y, P s → P (step s y)) {x : α} {xs : List α}
    (hx : x ∈ xs) (make : ∀ s, P (step s x)) (s : σ) : P (xs.foldl step s) := by
  obtain ⟨before, after, rfl⟩ := append_of_mem hx
  rw [foldl_append, foldl_cons]
  have hk : ∀ s, P s → P (after.foldl step s) := by
    induction after with
    | nil => exact fun s hs => hs
    | cons y ys ih => exact fun s hs => ih (by simp) (step s y) (keep s y hs)
  exact hk _ (make _)

theorem getElem?_labelPlaces (h : .label l ∈ items) : ∃ n, (labelPlaces items)[l]? = some n := by
  obtain ⟨i, hi, hl⟩ := getElem_of_mem h
  have hm : (.label l, i) ∈ items.zipIdx := by simp [mem_zipIdx_iff_getElem?, hi, hl]
  refine foldl_of_mem (P := fun places : Std.HashMap Label Nat => ∃ n, places[l]? = some n) ?_ hm ?_ _
  · rintro places ⟨item, k⟩ ⟨n, hn⟩
    cases item with
    | label l' =>
      simp only [Std.HashMap.getElem?_insert]
      split
      · exact ⟨k, rfl⟩
      · exact ⟨n, hn⟩
    | _ => exact ⟨n, hn⟩
  · exact fun places => ⟨i, by simp⟩

theorem maxStack {handlers : List Label} (ht : TargetsIn items fun l => .label l ∈ items)
    (hh : ∀ l ∈ handlers, .label l ∈ items) : LabelSafe (maxStack items handlers) := by
  have hs : LabelSafe (handlers.mapM (ClassDoc.placeOf (labelPlaces items))) :=
    mapM _ fun l hl => placeOf (getElem?_labelPlaces (hh l hl))
  have hd := @deepest (labelPlaces items) items.toArray fun i hi l hl =>
    getElem?_labelPlaces (ht i (by simpa using hi) l hl)
  grind [ClassDoc.maxStack]

/-! ## Tables -/

theorem encodeTryCatch {t : TryCatch} (hs : layout.Defines t.start) (he : layout.Defines t.stop)
    (hh : layout.Defines t.handler) : LabelSafe (Body.encodeTryCatch layout t) := by
  grind [Body.encodeTryCatch]

theorem encodeLineNumber {line : UInt16 × Label} (h : layout.Defines line.2) :
    LabelSafe (Body.encodeLineNumber layout line) := by
  grind [Body.encodeLineNumber]

theorem encodeVariable {v : LocalVariable × String} (hs : layout.Defines v.1.start) (he : layout.Defines v.1.stop) :
    LabelSafe (Body.encodeVariable layout v) := by
  grind [Body.encodeVariable]

/-- The tables of the code mention only defined labels. -/
structure TablesIn (body : Body) (defined : Label → Prop) : Prop where
  tryCatches : ∀ t ∈ body.tryCatches, defined t.start ∧ defined t.stop ∧ defined t.handler
  lineNumbers : ∀ line ∈ body.lineNumbers, defined line.2
  localVariables : ∀ v ∈ body.localVariables, defined v.start ∧ defined v.stop
  typeAnnotations : ∀ a ∈ body.typeAnnotations, ∀ l ∈ a.2.target.labels, defined l

theorem bodyAttributes (hi : FramesIn (layout.items.map Placed.item) layout.Defines)
    (ht : TablesIn body layout.Defines) : LabelSafe (body.attributes layout) := by
  have hv : ∀ vs : List (LocalVariable × String), (∀ v ∈ vs, v.1 ∈ body.localVariables) →
      LabelSafe (ClassDoc.encodeList (Body.encodeVariable layout) vs) := fun vs h => encodeList fun v hm =>
    have := ht.localVariables v.1 (h v hm)
    encodeVariable this.1 this.2
  have hd := hv body.described fun v hm => by
    obtain ⟨w, hw, rfl⟩ := mem_map.1 hm
    exact hw
  have hs := hv body.signed fun v hm => by
    obtain ⟨w, hw, h⟩ := mem_filterMap.1 hm
    obtain ⟨_, -, rfl⟩ := Option.map_eq_some_iff.1 h
    exact hw
  have hl : LabelSafe (ClassDoc.encodeList (Body.encodeLineNumber layout) body.lineNumbers) :=
    encodeList fun line hm => encodeLineNumber (ht.lineNumbers line hm)
  have ha : ∀ visible, LabelSafe (body.typesAttribute layout visible) := by
    intro visible
    have : LabelSafe (ClassDoc.typeAnnotationsAttribute (some layout.offset) visible body.typeAnnotations) :=
      typeAnnotationsAttribute visible fun a ha l hl => offset (ht.typeAnnotations a ha l hl)
    grind [Body.typesAttribute]
  have hf := encodeFrameTable hi
  grind [Body.attributes]

/-! ## Code -/

theorem maxsOf (hi : TargetsIn body.items fun l => .label l ∈ body.items)
    (hh : ∀ l ∈ body.handlers, .label l ∈ body.items) (access : UInt16) (descriptor : String) :
    LabelSafe (body.maxsOf access descriptor) := by
  have hs := maxStack hi hh
  have hl : LabelSafe (maxLocals access descriptor body.items body.localVariables) := by grind [maxLocals]
  grind [Body.maxsOf]

theorem encodeBody (hn : (body.items.filterMap Item.label?).Nodup)
    (hi : TargetsIn body.items fun l => .label l ∈ body.items) (hf : FramesIn body.items fun l => .label l ∈ body.items)
    (ht : TablesIn body fun l => .label l ∈ body.items) (access : UInt16) (descriptor : String) :
    LabelSafe (body.encode access descriptor) := by
  refine bind_of (layoutOf hn hi) fun s layout t hl => ?_
  have hfits := (grows_layout body.items hl).2 t (.refl t)
  have he := hfits.items_eq
  have hd : ∀ l, .label l ∈ body.items → layout.Defines l := fun l hm =>
    Layout.defines_of_mem hfits.label_iff (he ▸ hm)
  have h1 : LabelSafe layout.emit := emitLayout (by rw [he]; exact fun i hm l hl => hd l (hi i hm l hl))
  have h2 : LabelSafe (body.maxsOf access descriptor) := maxsOf hi (fun l hl => by
    obtain ⟨t, hm, rfl⟩ := mem_map.1 hl
    exact (ht.tryCatches t hm).2.2) access descriptor
  have h3 : LabelSafe (ClassDoc.encodeList (Body.encodeTryCatch layout) body.tryCatches) := encodeList fun t hm =>
    have := ht.tryCatches t hm
    encodeTryCatch (hd _ this.1) (hd _ this.2.1) (hd _ this.2.2)
  have h4 : LabelSafe (body.attributes layout) := bodyAttributes
    (by rw [he]; exact fun f hm l hl => hd l (hf f hm l hl))
      ⟨fun t hm => (ht.tryCatches t hm).imp (hd _) (And.imp (hd _) (hd _)), fun line hm => hd _ (ht.lineNumbers line hm),
      fun v hm => (ht.localVariables v hm).imp (hd _) (hd _), fun a hm l hl => hd l (ht.typeAnnotations a hm l hl)⟩
  grind

/-- **The code of events whose labels are in order is never refused because of a label.** -/
theorem encodeCode {code : List CodeEvent} (h : WellLabelled code) (access : UInt16) (descriptor : String) :
    LabelSafe ((Body.ofEvents code).encode access descriptor) := by
  have hd : code.filterMap CodeEvent.defined? = (Body.ofEvents code).items.filterMap Item.label? := by
    simp only [Body.ofEvents, filterMap_filterMap]
    congr 1
    funext e
    cases e <;> rfl
  have hl : ∀ e ∈ code, ∀ l ∈ e.labels, Item.label l ∈ (Body.ofEvents code).items := by
    intro e he l hl
    obtain ⟨e', he', hl'⟩ := mem_filterMap.1 (h.defined e he l hl)
    refine mem_filterMap.2 ⟨e', he', ?_⟩
    cases e' with
    | label => cases hl'; rfl
    | _ => cases hl'
  refine encodeBody (hd ▸ h.nodup) ?_ ?_ ⟨?_, ?_, ?_, ?_⟩ access descriptor
  · intro i hi l
    obtain ⟨e, he, hei⟩ := mem_filterMap.1 hi
    cases e <;> cases hei
    exact hl _ he l
  · intro f hf l
    obtain ⟨e, he, hef⟩ := mem_filterMap.1 hf
    cases e <;> cases hef
    exact hl _ he l
  · intro t ht
    obtain ⟨e, he, het⟩ := mem_filterMap.1 ht
    cases e <;> cases het
    exact ⟨hl _ he _ (by simp [CodeEvent.labels]), hl _ he _ (by simp [CodeEvent.labels]),
      hl _ he _ (by simp [CodeEvent.labels])⟩
  · intro line ht
    obtain ⟨e, he, het⟩ := mem_filterMap.1 ht
    cases e <;> cases het
    exact hl _ he _ (by simp [CodeEvent.labels])
  · intro v hv
    obtain ⟨e, he, hev⟩ := mem_filterMap.1 hv
    cases e <;> cases hev
    exact ⟨hl _ he _ (by simp [CodeEvent.labels]), hl _ he _ (by simp [CodeEvent.labels])⟩
  · intro a ha l
    obtain ⟨e, he, hea⟩ := mem_filterMap.1 ha
    cases e <;> cases hea
    exact hl _ he l

end LabelSafe

end ClassDoc
