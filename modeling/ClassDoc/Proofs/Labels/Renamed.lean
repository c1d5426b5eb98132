/-
  Code whose labels are renamed is written as the same bytes.
-/
import ClassDoc.Code.Attribute
import ClassDoc.Proofs.Code.Relabel
import ClassDoc.Proofs.Follows
namespace ClassDoc

open List

variable {f : Label → Label}

/-! ## Other labels -/

def Item.map (f : Label → Label) : Item → Item
  | label l => label (f l)
  | frame frame' => frame (frame'.map f)
  | insn i => insn (i.map f)

def Placed.map (f : Label → Label) (x : Placed) : Placed := ⟨x.item.map f, x.wide, x.offset⟩

def TryCatch.map (f : Label → Label) (t : TryCatch) : TryCatch := ⟨f t.start, f t.stop, f t.handler, t.catchType⟩

def LocalVariable.map (f : Label → Label) (v : LocalVariable) : LocalVariable :=
  { v with start := f v.start, stop := f v.stop }

def Body.map (f : Label → Label) (body : Body) : Body where
  items := body.items.map (Item.map f)
  tryCatches := body.tryCatches.map (TryCatch.map f)
  lineNumbers := body.lineNumbers.map fun line => (line.1, f line.2)
  localVariables := body.localVariables.map (LocalVariable.map f)
  typeAnnotations := body.typeAnnotations.map fun a => (a.1, a.2.map f)
  maxs := body.maxs

/-! ## Layouts -/

namespace Layout

/-- The layouts differ in the names of labels only. -/
structure Renamed (f : Label → Label) (layout renamed : Layout) : Prop where
  items : renamed.items = layout.items.map (Placed.map f)
  labels : ∀ l, renamed.labels[f l]? = layout.labels[l]?
  length : renamed.length = layout.length

end Layout

theorem Insn.size_map (pc : Nat) (wide : Bool) (i : Insn Label) : (i.map f).size pc wide = i.size pc wide := by
  cases i <;> simp [Insn.size]

theorem Layout.Renamed.position {layout renamed : Layout} (h : layout.Renamed f renamed) (l : Label) :
    Follows (layout.position l) (renamed.position (f l)) Eq := by
  unfold Layout.position
  rw [h.labels]
  split
  · exact .ok rfl
  · exact .error _ _

section
variable (hf : Function.Injective f) (xs : List (Item × Bool))
include hf

theorem Layout.Renamed.place {layout renamed : Layout} (h : layout.Renamed f renamed) (x : Item × Bool) :
    Follows (layout.place x) (renamed.place (x.1.map f, x.2)) (Layout.Renamed f) := by
  obtain ⟨item, wide⟩ := x
  cases item with
  | label l =>
    have hc : renamed.labels.contains (f l) = layout.labels.contains l := by
      simp only [Std.HashMap.contains_eq_isSome_getElem?, h.labels]
    simp only [Layout.place, Item.map, hc]
    refine .ite Iff.rfl (.throw _ _) (.pure ⟨?_, fun k => ?_, h.length⟩)
    · simp [h.items, h.length, Placed.map, Item.map]
    · rw [Std.HashMap.getElem?_insert, Std.HashMap.getElem?_insert, h.labels, h.length]
      simp only [beq_iff_eq, hf.eq_iff]
  | frame => exact .pure ⟨by simp [h.items, h.length, Placed.map, Item.map], h.labels, h.length⟩
  | insn i =>
    simp only [Layout.place, Item.map, Insn.size_map, h.length]
    exact (Follows.refl _).bind_eq fun n => .pure ⟨by simp [h.items, Placed.map, Item.map], h.labels, rfl⟩

def renameItems (f : Label → Label) (xs : List (Item × Bool)) : List (Item × Bool) := xs.map fun x => (x.1.map f, x.2)

theorem follows_foldlM_place {layout renamed : Layout} (h : layout.Renamed f renamed) :
    Follows (xs.foldlM Layout.place layout) ((renameItems f xs).foldlM Layout.place renamed) (Layout.Renamed f) := by
  induction xs generalizing layout renamed with
  | nil => exact .pure h
  | cons x xs ih =>
    rw [renameItems, map_cons, foldlM_cons, foldlM_cons]
    exact (h.place hf x).bind fun _ _ h => ih h

theorem follows_round : Follows (Layout.round xs) (Layout.round (renameItems f xs)) (Layout.Renamed f) := by
  refine (follows_foldlM_place hf xs ⟨rfl, fun l => by simp, rfl⟩).bind fun layout renamed h =>
    .pure ⟨?_, h.labels, h.length⟩
  simp [h.items]

end

namespace Layout.Renamed

variable {layout renamed : Layout} (h : layout.Renamed f renamed)
include h

theorem offset (l : Label) : Follows (layout.offset l) (renamed.offset (f l)) Eq :=
  (h.position l).bind_eq fun _ => .ite Iff.rfl (.pure rfl) (.error _ _)

theorem distance (start : Nat) (l : Label) : Follows (layout.distance start l) (renamed.distance start (f l)) Eq :=
  (h.position l).bind_eq fun _ => .pure rfl

theorem mustBeWide (x : Placed) : Follows (layout.mustBeWide x) (renamed.mustBeWide (x.map f)) Eq := by
  obtain ⟨item, wide, offset⟩ := x
  cases item with
  | insn i =>
    cases i with
    | jump op target => exact .ite Iff.rfl (.ok rfl) ((h.distance offset target).bind_eq fun _ => .pure rfl)
    | _ => exact .ok (by simp [Placed.map])
  | _ => exact .ok rfl

theorem widen : Follows layout.widen renamed.widen fun ws ws' => ws' = renameItems f ws := by
  rw [Layout.widen, Layout.widen, h.items]
  refine (Follows.mapM (S := fun w w' => w' = (w.1.map f, w.2)) ?_).mono fun ws ws' hw => ?_
  · rw [forall₂_map_right_iff, forall₂_same]
    exact fun x _ => (h.mustBeWide x).bind_eq fun _ => .pure rfl
  · rw [renameItems, ← forall₂_eq_eq_eq, forall₂_map_right_iff]
    exact hw.flip

theorem isSettled (ws : List (Item × Bool)) : renamed.isSettled (renameItems f ws) = layout.isSettled ws := by
  simp [Layout.isSettled, renameItems, h.items, Function.comp_def, Placed.map]

end Layout.Renamed

section
variable (hf : Function.Injective f)
include hf

theorem follows_settle (fuel : Nat) (xs : List (Item × Bool)) :
    Follows (Layout.settle fuel xs) (Layout.settle fuel (renameItems f xs)) (Layout.Renamed f) := by
  induction fuel generalizing xs with
  | zero => exact follows_round hf xs
  | succ fuel ih =>
    refine (follows_round hf xs).bind fun layout renamed h => h.widen.lift.bind fun ws ws' hw => ?_
    subst hw
    rw [h.isSettled]
    exact .ite Iff.rfl (.pure h) (ih ws)

theorem follows_layoutOf (items : List Item) :
    Follows (Layout.of items) (Layout.of (items.map (Item.map f))) (Layout.Renamed f) := by
  have hi : (items.map (Item.map f)).map (fun item => (item, false)) =
      renameItems f (items.map fun item => (item, false)) := by
    simp [renameItems]
  rw [Layout.of, Layout.of, hi, length_map]
  refine (follows_settle hf _ _).bind fun layout renamed h => ?_
  rw [h.length]
  exact .ite Iff.rfl (.throw _ _) (.pure h)

end

/-! ## Instructions -/

namespace Layout.Renamed

variable {layout renamed : Layout} (h : layout.Renamed f renamed) (pc : Nat)
include h

theorem emitDistance (l : Label) : Follows (emitDistance layout pc l) (emitDistance renamed pc (f l)) Eq :=
  (h.distance pc l).map _

theorem emitJump (wide : Bool) (op : Opcode) (l : Label) :
    Follows (emitJump layout pc wide op l) (emitJump renamed pc wide op (f l)) Eq := by
  refine .ite Iff.rfl (.error _ _) (.ite Iff.rfl ((h.distance pc l).map _) (.ite Iff.rfl ((h.emitDistance pc l).map _) ?_))
  split
  · exact .error _ _
  · exact (h.emitDistance (pc + 3) l).map _

theorem emitTable (low high : Int32) (l : Label) (ls : List Label) :
    Follows (emitTable layout pc low high l ls) (emitTable renamed pc low high (f l) (ls.map f)) Eq := by
  unfold ClassDoc.emitTable
  rw [length_map]
  exact .ite Iff.rfl (.error _ _) ((h.emitDistance pc l).bind_eq fun _ =>
    (Follows.mapM_map fun l _ => h.emitDistance pc l).map _)

omit h in
theorem duplicateKey?_map (pairs : List (Int32 × Label)) :
    duplicateKey? (pairs.map fun p => (p.1, f p.2)) = duplicateKey? pairs := by
  fun_induction duplicateKey? pairs with
  | case1 key l target rest => simp [duplicateKey?]
  | case2 key l next target rest hne ih => simpa [duplicateKey?, hne] using ih
  | case3 pairs hpairs =>
    rcases pairs with _ | ⟨p, _ | ⟨q, rest⟩⟩
    · rfl
    · rfl
    · exact absurd rfl (hpairs p.1 p.2 q.1 q.2 rest)

theorem emitLookup (l : Label) (pairs : List (Int32 × Label)) :
    Follows (emitLookup layout pc l pairs) (emitLookup renamed pc (f l) (pairs.map fun p => (p.1, f p.2))) Eq := by
  have hs : (pairs.map fun p => (p.1, f p.2)).mergeSort (fun a b => a.1 ≤ b.1)
      = (pairs.mergeSort fun a b => a.1 ≤ b.1).map fun p => (p.1, f p.2) := by
    refine (map_mergeSort ?_).symm
    exact fun _ _ _ _ => rfl
  unfold ClassDoc.emitLookup
  simp only [hs, duplicateKey?_map, length_map]
  split
  · exact .error _ _
  · refine (h.emitDistance pc l).bind_eq fun _ => (Follows.refl _).bind_eq fun _ => Follows.map (Follows.mapM_map ?_) _
    exact fun p _ => (h.emitDistance pc p.2).map _

theorem emitInsn (wide : Bool) (i : Insn Label) : Follows (i.emit layout pc wide) ((i.map f).emit renamed pc wide) Eq := by
  cases i with
  | jump op l => exact (h.emitJump pc wide op l).lift
  | tableSwitch low high l ls =>
    rw [Insn.map_tableSwitch]
    exact (h.emitTable pc low high l ls).lift
  | lookupSwitch l pairs =>
    rw [Insn.map_lookupSwitch]
    exact (h.emitLookup pc l pairs).lift
  | _ => exact .refl _

theorem emitPlaced (x : Placed) : Follows (x.emit layout) ((x.map f).emit renamed) Eq := by
  obtain ⟨item, wide, offset⟩ := x
  cases item with
  | insn i => exact (h.emitInsn offset wide i).inPlace _ _
  | _ => exact .pure rfl

theorem emit : Follows layout.emit renamed.emit Eq := by
  unfold Layout.emit
  rw [h.items]
  exact (Follows.mapM_map fun x _ => h.emitPlaced x).map _

end Layout.Renamed

/-! ## The stack -/

theorem Insn.stackEffect_map (i : Insn Label) : (i.map f).stackEffect = i.stackEffect := by
  cases i <;> simp [Insn.stackEffect]

theorem Insn.opcode_map (i : Insn Label) : (i.map f).opcode = i.opcode := by
  cases i <;> simp [Insn.opcode]

def RenamedPlaces (f : Label → Label) (places renamed : Std.HashMap Label Nat) : Prop := ∀ l, renamed[f l]? = places[l]?

theorem RenamedPlaces.placeOf {places renamed : Std.HashMap Label Nat} (h : RenamedPlaces f places renamed) (l : Label) :
    Follows (placeOf places l) (placeOf renamed (f l)) Eq := by
  unfold ClassDoc.placeOf
  rw [h]
  split
  · exact .ok rfl
  · exact .error _ _

def addPlace (places : Std.HashMap Label Nat) (x : Item × Nat) : Std.HashMap Label Nat :=
  match x.1 with
  | .label l => places.insert l x.2
  | _ => places

theorem renamedPlaces_labelPlaces (hf : Function.Injective f) (items : List Item) :
    RenamedPlaces f (labelPlaces items) (labelPlaces (items.map (Item.map f))) := by
  -- the places so far are those of the other labels
  have hrun : ∀ (k : Nat) (places renamed : Std.HashMap Label Nat), RenamedPlaces f places renamed →
      RenamedPlaces f ((items.zipIdx k).foldl addPlace places)
        (((items.map (Item.map f)).zipIdx k).foldl addPlace renamed) := by
    induction items with
    | nil => exact fun _ _ _ h => h
    | cons item items ih =>
      intro k places renamed h
      simp only [map_cons, zipIdx_cons, foldl_cons]
      refine ih (k + 1) _ _ ?_
      cases item with
      | label l =>
        intro l'
        simp only [addPlace, Item.map, Std.HashMap.getElem?_insert, h l', beq_iff_eq, hf.eq_iff]
      | _ => exact h
  exact hrun 0 {} {} fun l => by simp

theorem follows_deepest {items : Array Item} {places renamed : Std.HashMap Label Nat} (h : RenamedPlaces f places renamed)
    (fuel index : Nat) (depth : Int) (work : List (Nat × Int)) (visited : Array Bool) (max : Int) :
    Follows (deepest items places fuel index depth work visited max)
      (deepest (items.map (Item.map f)) renamed fuel index depth work visited max) Eq := by
  induction fuel generalizing index depth work visited max with
  | zero => exact .ok rfl
  | succ fuel ih =>
    unfold deepest
    refine .ite Iff.rfl ?_ ?_
    · split
      · exact .ok rfl
      · exact ih _ _ _ _ _
    · rw [Array.getElem?_map, Array.size_map]
      cases items[index]? with
      | none => exact ih _ _ _ _ _
      | some item =>
        cases item with
        | insn i =>
          simp only [Option.map_some, Item.map, Insn.stackEffect_map, Insn.opcode_map, Insn.targets_map]
          refine (Follows.refl _).bind_eq fun effect => .ite Iff.rfl (.error _ _) ?_
          refine (Follows.mapM_map fun l _ => h.placeOf l).bind_eq fun targets => ?_
          exact .ite Iff.rfl (ih _ _ _ _ _) (ih _ _ _ _ _)
        | _ => exact ih _ _ _ _ _

theorem pathSteps_map (items : List Item) (handlers : List Label) :
    pathSteps (items.map (Item.map f)) (handlers.map f) = pathSteps items handlers := by
  have hi : (items.map (Item.map f)).filterMap Item.insn? = (items.filterMap Item.insn?).map (Insn.map f) := by
    rw [filterMap_map, map_filterMap]
    refine filterMap_congr fun item _ => ?_
    cases item <;> rfl
  simp [pathSteps, hi, Function.comp_def, Insn.targets_map]

theorem follows_maxStack (hf : Function.Injective f) (items : List Item) (handlers : List Label) :
    Follows (maxStack items handlers) (maxStack (items.map (Item.map f)) (handlers.map f)) Eq := by
  have hp := renamedPlaces_labelPlaces hf items
  unfold maxStack
  rw [pathSteps_map, length_map, ← map_toArray]
  refine (Follows.mapM_map fun l _ => hp.placeOf l).bind_eq fun starts => ?_
  exact (follows_deepest hp _ _ _ _ _ _).bind_eq fun _ => .ite Iff.rfl (.pure rfl) (.error _ _)

theorem maxLocals_map (access : UInt16) (descriptor : String) (items : List Item) (locals : List LocalVariable) :
    maxLocals access descriptor (items.map (Item.map f)) (locals.map (LocalVariable.map f))
      = maxLocals access descriptor items locals := by
  have hi : ∀ item : Item, (item.map f).localsEnd = item.localsEnd := by
    intro item
    cases item with
    | insn i => cases i <;> simp [Item.map, Item.localsEnd]
    | _ => rfl
  simp [maxLocals, foldl_map, hi, LocalVariable.map]

namespace Body

variable {body : Body}

theorem handlers_map : (body.map f).handlers = body.handlers.map f := by
  simp [Body.map, Body.handlers, TryCatch.map]

theorem follows_maxsOf (hf : Function.Injective f) (access : UInt16) (descriptor : String) :
    Follows (body.maxsOf access descriptor) ((body.map f).maxsOf access descriptor) Eq := by
  unfold maxsOf
  rw [handlers_map]
  simp only [Body.map]
  split
  · exact .ok rfl
  · rw [maxLocals_map]
    exact (follows_maxStack hf _ _).bind_eq fun _ => .refl _

end Body

/-! ## Tables -/

theorem follows_encodeList {α β : Type} {encode : α → PoolM Bytes} {encode' : β → PoolM Bytes} {k : α → β} {xs : List α}
    (h : ∀ x ∈ xs, Follows (encode x) (encode' (k x)) Eq) :
      Follows (encodeList encode xs) (encodeList encode' (xs.map k)) Eq := by
  unfold encodeList
  rw [length_map]
  exact (Follows.refl _).bind_eq fun _ => (Follows.mapM_map h).map _

theorem follows_makeIf {x y : PoolM Bytes} (h : Follows x y Eq) (condition : Bool) (name : String) :
    Follows (Attribute.makeIf condition name x) (Attribute.makeIf condition name y) Eq :=
  .ite Iff.rfl (((Follows.refl _).bind_eq fun _ => (h.inPlace _ _).map _).map _) (.pure rfl)

namespace Layout.Renamed

variable {layout renamed : Layout} (h : layout.Renamed f renamed)
include h

theorem encodeTryCatch (t : TryCatch) :
    Follows (Body.encodeTryCatch layout t) (Body.encodeTryCatch renamed (t.map f)) Eq := by
  refine (h.offset t.start).lift.bind_eq fun start => (h.offset t.stop).lift.bind_eq fun stop => ?_
  exact .ite Iff.rfl (.throw _ _) ((h.offset t.handler).lift.bind_eq fun _ => .refl _)

theorem encodeLineNumber (line : UInt16 × Label) :
    Follows (Body.encodeLineNumber layout line) (Body.encodeLineNumber renamed (line.1, f line.2)) Eq :=
  (h.offset line.2).lift.map _

theorem encodeVariable (v : LocalVariable × String) :
    Follows (Body.encodeVariable layout v) (Body.encodeVariable renamed (v.1.map f, v.2)) Eq := by
  refine (h.offset v.1.start).lift.bind_eq fun start => (h.offset v.1.stop).lift.bind_eq fun stop => ?_
  exact .ite Iff.rfl (.throw _ _) (.refl _)

/-! ## Frames -/

theorem encodeType (t : VerificationType Label) : Follows (t.encode layout) ((t.map f).encode renamed) Eq := by
  cases t with
  | uninitialized l => exact (h.offset l).lift.map _
  | _ => exact .refl _

theorem encodeTypes (ts : List (VerificationType Label)) :
    Follows (encodeTypes layout ts) (encodeTypes renamed (ts.map (VerificationType.map f))) Eq :=
  (Follows.mapM_map fun t _ => h.encodeType t).map _

theorem encodeFrame (delta : UInt16) (frame : Frame Label) :
    Follows (frame.encode layout delta) ((frame.map f).encode renamed delta) Eq := by
  obtain ⟨kind, locals, stack⟩ := frame
  cases kind with
  | same => exact .pure rfl
  | sameLocals1StackItem =>
    rcases stack with _ | ⟨t, _ | ⟨t', stack⟩⟩
    · exact .throw _ _
    · exact (h.encodeType t).map _
    · exact .throw _ _
  | chop count => exact .refl _
  | append =>
    simp only [Frame.encode, Frame.map, length_map]
    exact .ite Iff.rfl ((h.encodeTypes locals).map _) (.throw _ _)
  | full =>
    simp only [Frame.encode, Frame.map, length_map]
    exact (Follows.refl _).bind_eq fun _ => (h.encodeTypes locals).bind_eq fun _ => (Follows.refl _).bind_eq fun _ =>
      (h.encodeTypes stack).map _

theorem frames : renamed.frames = layout.frames.map fun p => (p.1, p.2.map f) := by
  rw [Layout.frames, Layout.frames, h.items, filterMap_map, map_filterMap]
  refine filterMap_congr fun x _ => ?_
  obtain ⟨item, wide, offset⟩ := x
  cases item <;> rfl

theorem encodeFrames (fs : List (Nat × Frame Label)) (previous : Option Nat) (done : List Bytes) :
    Follows (encodeFrames layout previous done fs)
      (encodeFrames renamed previous done (fs.map fun p => (p.1, p.2.map f))) Eq := by
  induction fs generalizing previous done with
  | nil => exact .pure rfl
  | cons p fs ih =>
    simp only [map_cons, ClassDoc.encodeFrames, h.length]
    refine .ite Iff.rfl (.throw _ _) ((Follows.refl _).bind_eq fun delta => ?_)
    exact (h.encodeFrame _ p.2).bind_eq fun _ => ih _ _

theorem encodeFrameTable : Follows (encodeFrameTable layout) (encodeFrameTable renamed) Eq := by
  unfold ClassDoc.encodeFrameTable
  rw [h.frames, length_map]
  exact (Follows.refl _).bind_eq fun _ => (h.encodeFrames _ _ _).map _

/-! ## Annotations on types -/

theorem encodeRange (r : LocalRange Label) :
    Follows (r.encode (some layout.offset)) (LocalRange.encode (some renamed.offset) ⟨f r.start, f r.stop, r.index⟩) Eq :=
  (h.offset r.start).bind_eq fun _ => (h.offset r.stop).bind_eq fun _ => .ite Iff.rfl (.error _ _) (.pure rfl)

theorem encodeTarget (t : TypeTarget Label) :
    Follows (t.encode (some layout.offset)) ((t.map f).encode (some renamed.offset)) Eq := by
  cases t with
  | localVariable ranges =>
    simp only [TypeTarget.map, TypeTarget.encode, length_map]
    exact (Follows.refl _).bind_eq fun _ => (Follows.mapM_map fun r _ => h.encodeRange r).map _
  | offset l => exact (h.offset l).map _
  | typeArgument l argument => exact (h.offset l).map _
  | _ => exact .ok rfl

theorem encodeTypeAnnotation (a : TypeAnnotation Label) :
    Follows (a.encode (some layout.offset)) ((a.map f).encode (some renamed.offset)) Eq := by
  have hc : Follows (a.check true) ((a.map f).check true) Eq := by
    simp only [TypeTarget.fits, TypeAnnotation.check, TypeAnnotation.map, TypeTarget.form_map]
    exact .ite Iff.rfl (.error _ _) (.ite Iff.rfl (.error _ _) (.ok rfl))
  exact hc.lift.bind_eq fun _ => (h.encodeTarget a.target).lift.bind_eq fun _ => .refl _

end Layout.Renamed

/-! ## The code -/

namespace Body

variable {body : Body} {layout renamed : Layout}

theorem described_map : (body.map f).described = body.described.map fun v => (v.1.map f, v.2) := by
  simp [described, Body.map, LocalVariable.map]

theorem signed_map : (body.map f).signed = body.signed.map fun v => (v.1.map f, v.2) := by
  simp only [signed, Body.map]
  rw [filterMap_map, map_filterMap]
  refine filterMap_congr fun v _ => ?_
  cases hs : v.signature <;> simp [LocalVariable.map, hs]

theorem withVisibility_map (visible : Bool) :
    withVisibility visible (body.map f).typeAnnotations
      = (withVisibility visible body.typeAnnotations).map (·.map f) := by
  simp only [withVisibility, Body.map]
  rw [filterMap_map, map_filterMap]
  refine filterMap_congr fun a _ => ?_
  by_cases ha : a.1 = visible <;> simp [ha]

theorem missingCatch?_map (visible : Bool) : (body.map f).missingCatch? visible = body.missingCatch? visible := by
  unfold missingCatch?
  rw [withVisibility_map, findSome?_map]
  congr 1
  funext a
  obtain ⟨targetType, target, path, base⟩ := a
  cases target <;> simp [TypeTarget.map, TypeAnnotation.map, Body.map]

theorem follows_typesAttribute (h : layout.Renamed f renamed) (visible : Bool) :
    Follows (body.typesAttribute layout visible) ((body.map f).typesAttribute renamed visible) Eq := by
  unfold typesAttribute
  rw [missingCatch?_map]
  split
  · exact .throw _ _
  · simp only [typeAnnotationsAttribute, withVisibility_map, isEmpty_map]
    exact follows_makeIf (follows_encodeList fun a _ => h.encodeTypeAnnotation a) _ _

theorem follows_attributes (h : layout.Renamed f renamed) :
    Follows (body.attributes layout) ((body.map f).attributes renamed) Eq := by
  have hframe : (body.map f).items.any Item.isFrame = body.items.any Item.isFrame := by
    have hi : Item.isFrame ∘ Item.map f = Item.isFrame := by
      funext item
      cases item <;> rfl
    rw [Body.map, any_map, hi]
  have hlines : (body.map f).lineNumbers = body.lineNumbers.map fun line => (line.1, f line.2) := rfl
  unfold attributes
  rw [hframe, hlines, described_map, signed_map]
  simp only [isEmpty_map]
  refine (follows_makeIf h.encodeFrameTable _ _).bind_eq fun _ => ?_
  refine (follows_makeIf (follows_encodeList fun line _ => h.encodeLineNumber line) _ _).bind_eq fun _ => ?_
  refine (follows_makeIf (follows_encodeList fun v _ => h.encodeVariable v) _ _).bind_eq fun _ => ?_
  refine (follows_makeIf (follows_encodeList fun v _ => h.encodeVariable v) _ _).bind_eq fun _ => ?_
  exact (follows_typesAttribute h true).bind_eq fun _ => (follows_typesAttribute h false).map _

/-- **If code can be written, so can the code with other labels, and the bytes are the same.** -/
theorem follows_encode (hf : Function.Injective f) (access : UInt16) (descriptor : String) :
    Follows (body.encode access descriptor) ((body.map f).encode access descriptor) Eq := by
  refine (follows_layoutOf hf body.items).bind fun layout renamed h => h.emit.bind_eq fun code => ?_
  refine (follows_maxsOf hf access descriptor).lift.bind_eq fun maxs => (Follows.refl _).bind_eq fun length => ?_
  refine (follows_encodeList fun t _ => h.encodeTryCatch t).bind_eq fun tryCatches => ?_
  exact (follows_attributes h).bind_eq fun attributes => .refl _

end Body

end ClassDoc
