/-
  The table of frames is read back, in every pool and for every layout.
-/
import ClassDoc.Proofs.Code.Defined
namespace ClassDoc

open List

variable {α β : Type} {layout : Layout} {p q : Pool}

/-! ## Layouts in any pool -/

theorem Laid.pairwise {P : Pool} {start stop : Nat} {xs : List Placed} (h : Laid P start xs stop) :
    xs.Pairwise fun x y => x.offset ≤ y.offset := by
  induction xs generalizing start with
  | nil => exact .nil
  | cons x xs ih =>
    obtain ⟨rfl, n, -, h⟩ := h
    exact .cons (fun y hy => (Nat.le_add_right _ _).trans (h.offset_le hy).1) (ih h)

namespace Layout.Fits

variable {P : Pool} {items : List Item}

theorem offset_eq_ok (h : layout.Fits P items) {l : Label} (hl : layout.Defines l) :
    layout.offset l = .ok (layout.posOf l) := by
  obtain ⟨n, hn⟩ := hl
  rw [Layout.offset, Layout.position, hn]
  simp only [ok_bind]
  rw [if_pos (h.low l n hn), Layout.posOf, hn]
  rfl

theorem frames (h : layout.Fits P items) : (layout.frames.map Prod.fst).Pairwise (· ≤ ·) := by
  rw [pairwise_map, Layout.frames, pairwise_filterMap]
  refine h.laid.pairwise.imp fun {x y} hxy a ha b hb => ?_
  split at ha
  next =>
    split at hb
    next =>
      cases ha
      cases hb
      exact hxy
    next => cases hb
  next => cases ha

end Layout.Fits

/-! ## Reading frames -/

theorem Frame.mapLabels_eq_ok {f : Label → Except Fault UInt16} {g : Label → UInt16} {frame : Frame Label}
    (h : ∀ l ∈ frame.labels, f l = .ok (g l)) : frame.mapLabels f = .ok (frame.map g) := by
  have htypes : ∀ ts : List (VerificationType Label), (∀ t ∈ ts, ∀ l ∈ t.labels, f l = .ok (g l)) →
      ts.mapM (VerificationType.mapLabels f) = .ok (ts.map (VerificationType.map g)) := by
    intro ts hts
    refine mapM_eq_ok_iff.2 (forall₂_map_right_iff.2 (forall₂_same.2 fun t ht => ?_))
    cases t with
    | uninitialized l =>
      rw [VerificationType.mapLabels, hts _ ht l (by simp [VerificationType.labels])]
      rfl
    | _ => rfl
  simp only [Frame.labels, mem_append, mem_flatMap] at h
  have hlocals := htypes frame.locals fun t ht l hl => h l (.inl ⟨t, ht, hl⟩)
  have hstack := htypes frame.stack fun t ht l hl => h l (.inr ⟨t, ht, hl⟩)
  exact bind_eq_ok.2 ⟨_, hlocals, bind_eq_ok.2 ⟨_, hstack, rfl⟩⟩

theorem Layout.Fits.decodes_frameTable {P : Pool} {items : List Item} (hr : layout.Fits P items) (hp : p.Tables)
    (hw : ∀ f ∈ layout.frames, f.2.wellFormed = true) {bytes : Bytes} (h : encodeFrameTable layout p = .ok bytes q)
    {V : PoolView} (hV : V.Covers false q) :
    ∃ found, Decodes (decodeFrames V (UInt16.ofNat layout.length)) bytes found ∧
      Forall₂ (fun f r => r.1.toNat = f.1 ∧ f.2.mapLabels layout.offset = .ok r.2) layout.frames found := by
  have hputs : Puts false (encodeFrameTable layout) _ := puts_frameTable hr.posOf_le hr.lt
  have s := hputs hp h
  obtain ⟨hd, -, hbelow⟩ := s.seen q V s.wf le_rfl hV
  obtain ⟨count, r, -, h⟩ := run_bind_eq_ok.1 h
  obtain ⟨parts, r', hframes, -⟩ := run_bind_eq_ok.1 h
  refine ⟨_, hd, forall₂_map_right_iff.2 (forall₂_same.2 fun f hf => ⟨?_, ?_⟩)⟩
  · exact UInt16.toNat_ofNat_of_lt' ((hbelow f hf).trans hr.lt)
  · have hdefined := defines_of_encodeFrames hframes f hf
    rw [Frame.trim_of_wellFormed (hw f hf)] at hdefined
    rw [rawFrame, Frame.trim_of_wellFormed (hw f hf)]
    exact Frame.mapLabels_eq_ok fun l hl => hr.offset_eq_ok (hdefined l hl)

/-! ## Frames can be written -/

def Succeeds (x : PoolM α) : Prop :=
  ∀ p, (∃ a q, x p = .ok a q) ∨ ∃ e q, x p = .error (.write (.poolFull e q.count)) q ∧ 0xFFFF < q.count + e.slots

namespace Succeeds

theorem pure (a : α) : Succeeds (Pure.pure a) := fun p => .inl ⟨a, p, rfl⟩

theorem lift {x : Except Fault α} {a : α} (h : x = .ok a) : Succeeds (liftM x) :=
  fun p => .inl ⟨a, p, run_lift_eq_ok.2 ⟨h, rfl⟩⟩

theorem bind {x : PoolM α} {f : α → PoolM β} (hx : Succeeds x) (hf : ∀ a, Succeeds (f a)) : Succeeds (x >>= f) := by
  intro p
  rcases hx p with ⟨a, r, ha⟩ | ⟨e, r, he, hfull⟩
  · rcases hf a r with ⟨b, q, hb⟩ | ⟨e, q, he, hfull⟩
    · exact .inl ⟨b, q, run_bind_eq_ok.2 ⟨a, r, ha, hb⟩⟩
    · exact .inr ⟨e, q, run_bind_eq_error.2 (.inr ⟨a, r, ha, he⟩), hfull⟩
  · exact .inr ⟨e, r, run_bind_eq_error.2 (.inl he), hfull⟩

theorem map {x : PoolM α} (hx : Succeeds x) (f : α → β) : Succeeds (x >>= fun a => Pure.pure (f a)) :=
  hx.bind fun a => pure (f a)

theorem mapM {f : α → PoolM β} {xs : List α} (h : ∀ a ∈ xs, Succeeds (f a)) : Succeeds (xs.mapM f) := by
  induction xs with
  | nil => exact pure []
  | cons x xs ih =>
    rw [mapM_cons]
    exact (h x (by simp)).bind fun b => (ih fun a ha => h a (by simp [ha])).map (b :: ·)

theorem put (e : PoolEntry) : Succeeds (Pool.put e) := by
  intro p
  cases h : Pool.put e p with
  | ok i q => exact .inl ⟨i, q, rfl⟩
  | error f q =>
    obtain ⟨-, hc, rfl, rfl⟩ := Pool.put_eq_error_iff.1 h
    exact .inr ⟨e, q, rfl, by omega⟩

theorem type {t : VerificationType Label} (h : ∀ l ∈ t.labels, ∃ o, layout.offset l = .ok o) :
    Succeeds (t.encode layout) := by
  cases t with
  | object name => exact ((put _).bind fun n => put _).map _
  | uninitialized l =>
    obtain ⟨o, ho⟩ := h l (by simp [VerificationType.labels])
    exact (lift ho).map _
  | _ => exact pure _

theorem types {ts : List (VerificationType Label)} (h : ∀ t ∈ ts, ∀ l ∈ t.labels, ∃ o, layout.offset l = .ok o) :
    Succeeds (encodeTypes layout ts) :=
  (mapM fun t ht => type (h t ht)).map _

theorem count2 {n : Nat} (h : n ≤ 0xFFFF) : Succeeds (liftM (Bytes.count2 n)) :=
  lift (a := Bytes.u2 (UInt16.ofNat n)) (by rw [Bytes.count2, if_pos (by omega)])

theorem frame {frame : Frame Label} (hw : frame.wellFormed = true) (hl : ∀ l ∈ frame.labels, ∃ o, layout.offset l = .ok o)
    (hlocals : frame.locals.length ≤ 0xFFFF) (hstack : frame.stack.length ≤ 0xFFFF) (delta : UInt16) :
    Succeeds (frame.encode layout delta) := by
  obtain ⟨kind, locals, stack⟩ := frame
  simp only [Frame.labels, mem_append, mem_flatMap] at hl
  have hls : ∀ t ∈ locals, ∀ l ∈ t.labels, ∃ o, layout.offset l = .ok o := fun t ht l hmem => hl l (.inl ⟨t, ht, hmem⟩)
  have hss : ∀ t ∈ stack, ∀ l ∈ t.labels, ∃ o, layout.offset l = .ok o := fun t ht l hmem => hl l (.inr ⟨t, ht, hmem⟩)
  cases kind with
  | same => exact pure _
  | sameLocals1StackItem =>
    simp only [Frame.wellFormed, Bool.and_eq_true, beq_iff_eq] at hw
    obtain ⟨item, rfl⟩ := length_eq_one_iff.1 hw.2
    exact (type (hss item (by simp))).map _
  | chop count =>
    have hc : (1 ≤ count && count ≤ 3) = true := by
      simp only [Frame.wellFormed, Bool.and_eq_true] at hw ⊢
      exact hw.1.1
    unfold Frame.encode
    simp only
    rw [if_pos hc]
    exact pure _
  | append =>
    have hc : (1 ≤ locals.length && locals.length ≤ 3) = true := by
      simp only [Frame.wellFormed, Bool.and_eq_true] at hw ⊢
      exact hw.1
    unfold Frame.encode
    simp only
    rw [if_pos hc]
    exact (types hls).map _
  | full => exact (count2 hlocals).bind fun _ => (types hls).bind fun _ => (count2 hstack).bind fun _ => (types hss).map _

theorem frames {fs : List (Nat × Frame Label)} {previous : Option Nat} (ha : FramesAscend layout previous fs)
    (hf : ∀ f ∈ fs, ∀ delta, Succeeds (f.2.encode layout delta)) (done : List Bytes) :
    Succeeds (encodeFrames layout previous done fs) := by
  induction fs generalizing previous done with
  | nil => exact pure _
  | cons f fs ih =>
    obtain ⟨offset, f⟩ := f
    obtain ⟨hchain, hbelow⟩ := ha
    rw [forall_mem_cons] at hbelow hf
    obtain ⟨delta, hdelta⟩ : ∃ delta, frameDelta previous offset = .ok delta := by
      cases previous with
      | none => exact ⟨offset, rfl⟩
      | some previous =>
        rw [Option.toList_some, map_cons, singleton_append, isChain_cons_cons] at hchain
        exact ⟨_, if_pos hchain.1⟩
    have hrest : ((some offset).toList ++ fs.map Prod.fst).IsChain (· < ·) := by
      cases previous with
      | none => exact hchain
      | some previous => exact (isChain_cons_cons.1 hchain).2
    rw [encodeFrames, if_neg (Nat.not_le.2 hbelow.1)]
    exact (lift hdelta).bind fun delta => (hf.1 _).bind fun bytes => ih ⟨hrest, hbelow.2⟩ hf.2 _

end Succeeds

/-- **The table of frames of any code is read back, whatever is in the pool.** Frames with only the lists that
their kind uses are read in order, with their positions and those of their labels. Frames at different positions before the
end of the code, with labels that stand somewhere, can be written unless the pool is full. -/
theorem frameTable_roundTrip {items : List Item} {p₀ p₁ : Pool} (hlayout : Layout.of items p₀ = .ok layout p₁) (p : Pool) :
    layout.items.map Placed.item = items ∧
    (p.Tables → (∀ f ∈ layout.frames, f.2.wellFormed = true) → ∀ bytes q, encodeFrameTable layout p = .ok bytes q →
      ∀ V : PoolView, V.Covers false q → ∃ found, Decodes (decodeFrames V (UInt16.ofNat layout.length)) bytes found ∧
        Forall₂ (fun f r => r.1.toNat = f.1 ∧ f.2.mapLabels layout.offset = .ok r.2) layout.frames found) ∧
    ((layout.frames.map Prod.fst).Nodup → layout.frames.length ≤ 0xFFFF →
      (∀ f ∈ layout.frames, f.1 < layout.length ∧ f.2.wellFormed = true ∧ (∀ l ∈ f.2.labels, .label l ∈ items) ∧
        f.2.locals.length ≤ 0xFFFF ∧ f.2.stack.length ≤ 0xFFFF) →
      (∃ bytes q, encodeFrameTable layout p = .ok bytes q) ∨
        ∃ e q, encodeFrameTable layout p = .error (.write (.poolFull e q.count)) q ∧ 0xFFFF < q.count + e.slots) := by
  have hr := (grows_layout items hlayout).2 p₁ (.refl p₁)
  refine ⟨hr.items_eq, fun hp hw bytes q h V hV => hr.decodes_frameTable hp hw h hV, fun hnodup hcount hf => ?_⟩
  have hascend : FramesAscend layout none layout.frames := by
    refine ⟨isChain_iff_pairwise.2 ?_, fun f hmem => (hf f hmem).1⟩
    exact (hr.frames.and hnodup).imp fun h => Nat.lt_of_le_of_ne h.1 h.2
  have hframe : ∀ f ∈ layout.frames, ∀ delta, Succeeds (f.2.encode layout delta) := by
    intro f hmem
    obtain ⟨-, hw, hl, hlocals, hstack⟩ := hf f hmem
    refine Succeeds.frame hw (fun l hl' => ⟨_, hr.offset_eq_ok ?_⟩) hlocals hstack
    exact Layout.defines_of_mem hr.label_iff (hr.items_eq ▸ hl l hl')
  exact ((Succeeds.count2 hcount).bind fun count =>
    (Succeeds.frames hascend hframe []).map fun parts => count ++ parts.flatten) p

namespace TwoFrames

def start : Label := ⟨0⟩

def items : List Item :=
  [.label start, .insn (.simple Opcode.nop), .frame ⟨.full, [.object "A", .uninitialized start], []⟩,
    .insn (.simple Opcode.nop),
    .frame ⟨.same, [], []⟩, .insn (.simple Opcode.vreturn)]

def placed : Layout where
  items := [⟨.label start, false, 0⟩, ⟨.insn (.simple Opcode.nop), false, 0⟩,
    ⟨.frame ⟨.full, [.object "A", .uninitialized start], []⟩, false, 1⟩, ⟨.insn (.simple Opcode.nop), false, 1⟩,
    ⟨.frame ⟨.same, [], []⟩, false, 2⟩, ⟨.insn (.simple Opcode.vreturn), false, 2⟩]
  labels := ({} : Std.HashMap Label Nat).insert start 0
  length := 3

theorem of_items (p : Pool) : Layout.of items p = .ok placed p := by
  cbv

theorem exists_encodeFrameTable :
    ∃ q, encodeFrameTable placed {} = .ok [0, 2, 255, 0, 1, 0, 2, 7, 0, 2, 8, 0, 0, 0, 0, 0] q := by
  obtain ⟨_, q, h, hb⟩ := exists_of_succeeds (r := encodeFrameTable placed {})
    (p := fun bytes _ => bytes == [0, 2, 255, 0, 1, 0, 2, 7, 0, 2, 8, 0, 0, 0, 0, 0]) (by cbv)
  exact ⟨q, eq_of_beq hb ▸ h⟩

end TwoFrames

theorem frameTable_roundTrip_twoFrames : ∃ q found,
    encodeFrameTable TwoFrames.placed {} = .ok [0, 2, 255, 0, 1, 0, 2, 7, 0, 2, 8, 0, 0, 0, 0, 0] q ∧
    Decodes (decodeFrames { entries := q.slots.toArray } 3) [0, 2, 255, 0, 1, 0, 2, 7, 0, 2, 8, 0, 0, 0, 0, 0] found ∧
    Forall₂ (fun f r => r.1.toNat = f.1 ∧ f.2.mapLabels TwoFrames.placed.offset = .ok r.2)
      TwoFrames.placed.frames found ∧
    ∀ p, (∃ bytes q, encodeFrameTable TwoFrames.placed p = .ok bytes q) ∨
      ∃ e q, encodeFrameTable TwoFrames.placed p = .error (.write (.poolFull e q.count)) q ∧ 0xFFFF < q.count + e.slots := by
  obtain ⟨q, h⟩ := TwoFrames.exists_encodeFrameTable
  obtain ⟨-, hread, -⟩ := frameTable_roundTrip (TwoFrames.of_items {}) {}
  obtain ⟨found, hd, hfound⟩ := hread Pool.tables_empty (by decide) _ q h _ (PoolView.covers_slots q [])
  refine ⟨q, found, h, hd, hfound, fun p => ?_⟩
  have hframes : TwoFrames.placed.frames = [(1, ⟨.full, [.object "A", .uninitialized TwoFrames.start], []⟩),
    (2, ⟨.same, [], []⟩)] := rfl
  refine (frameTable_roundTrip (TwoFrames.of_items p) p).2.2 (by decide) (by decide) ?_
  rw [hframes]
  simp [Frame.wellFormed, Frame.labels, VerificationType.labels, TwoFrames.placed, TwoFrames.items]

end ClassDoc
