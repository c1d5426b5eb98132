/-
  Annotations survive being written and read, whatever else the pool gets.
-/
import ClassDoc.Proofs.Code.FrameTable
import ClassDoc.Proofs.Pool.Decode
namespace ClassDoc

open List

variable {α : Type} {p q : Pool} {bytes : Bytes} {offsets : Offsets} {V : PoolView} {x : PoolM α}

/-! ## The pool -/

/-- The entries are those that are read from the bytes of a later state of the pool. -/
def PoolView.ReadAfter (V : PoolView) (q : Pool) : Prop :=
  ∃ (r : Pool) (entries : Bytes), r.Tables ∧ q ≤ r ∧ r.encode = .ok entries ∧
    Decodes PoolView.decode entries { V with methods := [] }

theorem PoolView.ReadAfter.covers (h : V.ReadAfter q) : V.Covers false q := by
  obtain ⟨r, entries, hr, hle, he, hd⟩ := h
  have hslots := PoolView.decodes_encode hr he [] 0
  rw [hd [] 0] at hslots
  have hentries : V.entries = r.slots.toArray := congrArg (fun x => x.1.entries) (Except.ok.inj hslots)
  have hcovers : V.Covers false r := ⟨hentries ▸ (PoolView.covers_slots r []).entry, fun hf => absurd hf Bool.false_ne_true⟩
  exact hcovers.mono hle

theorem Puts.seen_after {Q : PoolView → α → Prop} (h : Puts false x Q) (hp : p.Tables) {a : α} (hx : x p = .ok a q)
    (hV : V.ReadAfter q) : Q V a :=
  have s := h hp hx
  s.seen q V s.wf le_rfl hV.covers

/-! ## Lengths -/

mutual

/-- Each list in the value is short enough for its number. -/
def ElementValue.fitsCounts : ElementValue → Bool
  | .nested _ es => es.length < 0x10000 && ElementValue.elementsFit es
  | .array vs => vs.length < 0x10000 && ElementValue.allFit vs
  | _ => true

def ElementValue.elementsFit : List (String × ElementValue) → Bool
  | [] => true
  | (_, v) :: es => v.fitsCounts && ElementValue.elementsFit es

def ElementValue.allFit : List ElementValue → Bool
  | [] => true
  | v :: vs => v.fitsCounts && ElementValue.allFit vs

end

def Annotation.fitsCounts (a : Annotation) : Bool := a.elements.length < 0x10000 && ElementValue.elementsFit a.elements

def TypeTarget.fitsCounts : TypeTarget Label → Bool
  | .localVariable ranges => ranges.length < 0x10000
  | _ => true

def TypeAnnotation.fitsCounts (a : TypeAnnotation Label) : Bool :=
  a.target.fitsCounts && a.path.length < 0x100 && a.base.fitsCounts

theorem lt_of_count2 {n : Nat} (h : Bytes.count2 n = .ok bytes) : n < 0x10000 := by
  rw [Bytes.count2] at h
  split at h
  next hn => exact hn
  next => cases h

theorem lt_of_count1 {n : Nat} (h : Bytes.count1 n = .ok bytes) : n < 0x100 := by
  rw [Bytes.count1] at h
  split at h
  next hn => exact hn
  next => cases h

mutual

theorem ElementValue.fitsCounts_of_encode : (v : ElementValue) → {p q : Pool} → {bytes : Bytes} →
    v.encode p = .ok bytes q → v.fitsCounts = true
  | .nested d es, p, q, bytes, h => by
    rw [encode] at h
    obtain ⟨_, _, -, h⟩ := run_bind_eq_ok.1 h
    obtain ⟨_, _, hc, h⟩ := run_bind_eq_ok.1 h
    obtain ⟨_, _, he, -⟩ := run_bind_eq_ok.1 h
    rw [fitsCounts, Bool.and_eq_true, decide_eq_true_eq]
    exact ⟨lt_of_count2 (run_lift_eq_ok.1 hc).1, ElementValue.elementsFit_of_encode es he⟩
  | .array vs, p, q, bytes, h => by
    rw [encode] at h
    obtain ⟨_, _, hc, h⟩ := run_bind_eq_ok.1 h
    obtain ⟨_, _, hv, -⟩ := run_bind_eq_ok.1 h
    rw [fitsCounts, Bool.and_eq_true, decide_eq_true_eq]
    exact ⟨lt_of_count2 (run_lift_eq_ok.1 hc).1, ElementValue.allFit_of_encode vs hv⟩
  | .byte _, _, _, _, _ | .char _, _, _, _, _ | .double _, _, _, _, _ | .float _, _, _, _, _ | .int _, _, _, _, _
  | .long _, _, _, _, _ | .short _, _, _, _, _ | .boolean _, _, _, _, _ | .string _, _, _, _, _ | .enum _ _, _, _, _, _
  | .classRef _, _, _, _, _ => by simp [fitsCounts]

theorem ElementValue.elementsFit_of_encode : (es : List (String × ElementValue)) → {p q : Pool} → {bytes : Bytes} →
    ElementValue.encodeElements es p = .ok bytes q → ElementValue.elementsFit es = true
  | [], _, _, _, _ => by simp [elementsFit]
  | (name, v) :: es, p, q, bytes, h => by
    rw [encodeElements] at h
    obtain ⟨_, _, -, h⟩ := run_bind_eq_ok.1 h
    obtain ⟨_, _, hv, h⟩ := run_bind_eq_ok.1 h
    obtain ⟨_, _, he, -⟩ := run_bind_eq_ok.1 h
    rw [elementsFit, Bool.and_eq_true]
    exact ⟨fitsCounts_of_encode v hv, ElementValue.elementsFit_of_encode es he⟩

theorem ElementValue.allFit_of_encode : (vs : List ElementValue) → {p q : Pool} → {bytes : Bytes} →
    ElementValue.encodeAll vs p = .ok bytes q → ElementValue.allFit vs = true
  | [], _, _, _, _ => by simp [allFit]
  | v :: vs, p, q, bytes, h => by
    rw [encodeAll] at h
    obtain ⟨_, _, hv, h⟩ := run_bind_eq_ok.1 h
    obtain ⟨_, _, hvs, -⟩ := run_bind_eq_ok.1 h
    rw [allFit, Bool.and_eq_true]
    exact ⟨fitsCounts_of_encode v hv, ElementValue.allFit_of_encode vs hvs⟩

end

theorem Annotation.fitsCounts_of_encode {a : Annotation} (h : Annotation.encode a p = .ok bytes q) :
    a.fitsCounts = true := by
  obtain ⟨_, _, -, h⟩ := run_bind_eq_ok.1 h
  obtain ⟨_, _, hc, h⟩ := run_bind_eq_ok.1 h
  obtain ⟨_, _, he, -⟩ := run_bind_eq_ok.1 h
  rw [fitsCounts, Bool.and_eq_true, decide_eq_true_eq]
  exact ⟨lt_of_count2 (run_lift_eq_ok.1 hc).1, ElementValue.elementsFit_of_encode _ he⟩

theorem TypeAnnotation.fitsCounts_of_encode {a : TypeAnnotation Label}
    (h : TypeAnnotation.encode offsets a p = .ok bytes q) : a.fitsCounts = true := by
  obtain ⟨_, _, -, h⟩ := run_bind_eq_ok.1 h
  obtain ⟨_, _, ht, h⟩ := run_bind_eq_ok.1 h
  obtain ⟨_, _, hp, h⟩ := run_bind_eq_ok.1 h
  obtain ⟨_, _, hb, -⟩ := run_bind_eq_ok.1 h
  obtain ⟨_, hc, -⟩ := bind_eq_ok.1 (run_lift_eq_ok.1 hp).1
  have htarget : a.target.fitsCounts = true := by
    have ht := (run_lift_eq_ok.1 ht).1
    cases hat : a.target with
    | localVariable ranges =>
      rw [hat] at ht
      obtain ⟨_, hc, -⟩ := bind_eq_ok.1 ht
      exact decide_eq_true (lt_of_count2 hc)
    | _ => rfl
  rw [fitsCounts, Bool.and_eq_true, Bool.and_eq_true, decide_eq_true_eq]
  exact ⟨⟨htarget, lt_of_count1 hc⟩, Annotation.fitsCounts_of_encode hb⟩

theorem TypeAnnotation.fitsCounts_of_encodeList {as : List <| TypeAnnotation Label}
    (h : encodeList (·.encode offsets) as p = .ok bytes q) :
    (as.length < 0x10000 && as.all TypeAnnotation.fitsCounts) = true := by
  obtain ⟨_, _, hc, h⟩ := run_bind_eq_ok.1 h
  obtain ⟨_, _, hm, -⟩ := run_bind_eq_ok.1 h
  rw [Bool.and_eq_true, decide_eq_true_eq, all_eq_true]
  refine ⟨lt_of_count2 (run_lift_eq_ok.1 hc).1, fun a ha => ?_⟩
  obtain ⟨_, _, _, ha⟩ := exists_of_mem_run_mapM hm ha
  exact fitsCounts_of_encode ha

theorem exists_error_of_false {b : Bool} (h : ∀ {a q}, x p = .ok a q → b = true) (hb : b = false) :
    ∃ f q, x p = .error f q := by
  cases hx : x p with
  | ok a q => exact absurd (hb ▸ h hx) Bool.false_ne_true
  | error f q => exact ⟨f, q, rfl⟩

/-! ## Reading back -/

def decodeAnnotationIn (V : PoolView) : Decode Annotation := do
  decodeNested V (ElementValue.decode V (← bytesLeft))

/-- The offsets of labels, and the length of the code that they are in: those of a layout, or none outside of code. -/
inductive Offsets.OfLayout : Offsets → Option UInt16 → Prop where
  | outside : Offsets.OfLayout none none
  | code {items : List Item} {layout : Layout} {p q : Pool} (h : Layout.of items p = .ok layout q) :
    Offsets.OfLayout (some layout.offset) (some (UInt16.ofNat layout.length))

theorem Offsets.OfLayout.within {length : Option UInt16} (h : offsets.OfLayout length) : offsets.Within length := by
  cases h with
  | outside => exact ⟨rfl, fun h _ => by cases h⟩
  | code h => exact Layout.within_offset ((grows_layout _ h).2 _ (.refl _)).posOf_le

/-- **Annotations are read back with each later state of the pool that they were written with.** The reader takes
exactly the bytes that were written, and has the same value, annotation or annotations on types, with the offsets of their
labels. A list that is too long for its number, in whatever part, is refused. -/
theorem annotations_roundTrip (hp : p.Tables) :
    (∀ v bytes q, ElementValue.encode v p = .ok bytes q →
      ∀ V : PoolView, V.ReadAfter q → Decodes (decodeValue V) bytes v) ∧
    (∀ a bytes q, Annotation.encode a p = .ok bytes q →
      ∀ V : PoolView, V.ReadAfter q → Decodes (decodeAnnotationIn V) bytes a) ∧
    (∀ offsets length, Offsets.OfLayout offsets length → ∀ (as : List <| TypeAnnotation Label) bytes q,
      encodeList (·.encode offsets) as p = .ok bytes q → ∀ V : PoolView, V.ReadAfter q →
        ∃ as', as.mapM (·.mapLabels offsets.of) = .ok as' ∧ Decodes (decodeTypes V length) bytes as') ∧
    (∀ v, ElementValue.fitsCounts v = false → ∃ f q, v.encode p = .error f q) ∧
    (∀ a, Annotation.fitsCounts a = false → ∃ f q, a.encode p = .error f q) ∧
    ∀ offsets as, (as.length < 0x10000 && as.all TypeAnnotation.fitsCounts) = false →
      ∃ f q, encodeList (·.encode offsets) as p = .error f q := by
  refine ⟨fun v bytes q h V hV => ?_, fun a bytes q h V hV => ?_, fun offsets length ho as bytes q h V hV => ?_,
    fun v => exists_error_of_false v.fitsCounts_of_encode, fun a => exists_error_of_false Annotation.fitsCounts_of_encode,
    fun offsets as => exists_error_of_false TypeAnnotation.fitsCounts_of_encodeList⟩
  · exact .bytesLeft ((puts_value v).seen_after hp h hV)
  · exact .bytesLeft ((puts_annotationBytes a).seen_after hp h hV)
  · exact (puts_typeAnnotations ho.within as).seen_after hp h hV

namespace TwoFrames

def created : TypeAnnotation Label := ⟨0x44, .offset start, [], ⟨"A", [("v", .array [.byte (-1)])]⟩⟩

theorem exists_encode_created : ∃ bytes q entries,
    encodeList (·.encode (some placed.offset)) [created] {} = .ok bytes q ∧ q.encode = .ok entries := by
  obtain ⟨bytes, q, h, hq⟩ := exists_of_succeeds (p := fun _ q => q.encode.isOk)
    (r := encodeList (·.encode (some placed.offset)) [created] {}) (by cbv)
  obtain ⟨entries, hentries⟩ := exists_eq_ok.2 hq
  exact ⟨bytes, q, entries, h, hentries⟩

end TwoFrames

theorem annotations_roundTrip_created : ∃ (q : Pool) (V : PoolView) (bytes : Bytes), V.ReadAfter q ∧
    encodeList (·.encode (some TwoFrames.placed.offset)) [TwoFrames.created] {} = .ok bytes q ∧
    (∃ as', [TwoFrames.created].mapM (·.mapLabels TwoFrames.placed.offset) = .ok as' ∧
      Decodes (decodeTypes V (some 3)) bytes as') ∧
    ∃ f q, encodeList (·.encode (some TwoFrames.placed.offset))
      [{ TwoFrames.created with path := replicate 256 ⟨0, 0⟩ }] {} = .error f q := by
  obtain ⟨bytes, q, entries, h, hentries⟩ := TwoFrames.exists_encode_created
  obtain ⟨-, -, hread, -, -, hlong⟩ := annotations_roundTrip Pool.tables_empty
  have ho : Offsets.OfLayout (some TwoFrames.placed.offset) (some 3) := .code (TwoFrames.of_items {})
  have hputs : Puts true _ _ := puts_typeAnnotations ho.within [TwoFrames.created]
  have hq : q.WF := (hputs Pool.wf_empty h).wf
  have hV : PoolView.ReadAfter { entries := q.slots.toArray } q :=
    ⟨q, entries, hq.tables, le_rfl, hentries, PoolView.decodes_encode hq.tables hentries⟩
  exact ⟨q, _, bytes, hV, h, hread _ _ ho _ _ q h _ hV, hlong _ _ (by decide +kernel)⟩

end ClassDoc
