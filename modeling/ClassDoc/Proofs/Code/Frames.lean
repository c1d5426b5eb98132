/-
  Stack map frames are read back from the table of frames.
-/
import ClassDoc.Proofs.Code.Bytecode
import ClassDoc.Code.FrameTable
import ClassDoc.Code.Read
namespace ClassDoc

open List

variable {full : Bool} {layout : Layout} {length : UInt16} {previous : Option Nat}

/-! ## Types -/

theorem checkOffset_eq_ok {offset : UInt16} (h : offset ≤ length) : checkOffset length offset = .ok () := by
  rw [checkOffset, if_neg (UInt16.not_lt.2 h)]

theorem puts_verificationType (hle : ∀ l, layout.posOf l ≤ length) (t : VerificationType Label) :
    Puts full (t.encode layout) fun V bytes =>
      Decodes (VerificationType.decode V length) bytes (t.map layout.posOf) := by
  cases t with
  | object name => exact (puts_classRef name).map fun V index hn => (decodes_u1 7).bind (decodes_index hn).map
  | uninitialized l =>
    refine (Puts.lift _).map fun V o ho => (decodes_u1 8).bind ((decodes_u2 o).bind_nil ?_)
    obtain rfl := (Layout.offset_eq_ok ho).2
    exact .lift_bind (checkOffset_eq_ok (hle l)) (.pure _)
  | top => exact .pure fun V => (decodes_u1 0).bind (.pure _)
  | integer => exact .pure fun V => (decodes_u1 1).bind (.pure _)
  | float => exact .pure fun V => (decodes_u1 2).bind (.pure _)
  | double => exact .pure fun V => (decodes_u1 3).bind (.pure _)
  | long => exact .pure fun V => (decodes_u1 4).bind (.pure _)
  | null => exact .pure fun V => (decodes_u1 5).bind (.pure _)
  | uninitializedThis => exact .pure fun V => (decodes_u1 6).bind (.pure _)

theorem puts_types (hle : ∀ l, layout.posOf l ≤ length) (ts : List (VerificationType Label)) :
    Puts full (encodeTypes layout ts) fun V bytes => ∃ parts, bytes = parts.flatten ∧
      Forall₂ (Decodes (VerificationType.decode V length)) parts (ts.map (VerificationType.map layout.posOf)) :=
  (Puts.mapM fun t _ => puts_verificationType hle t).map fun _ parts hp =>
    ⟨parts, rfl, forall₂_map_right_iff.2 hp.flip⟩

/-! ## Frames -/

theorem toUInt16_shortDelta {delta : UInt16} (h : delta ≤ maxShortDelta) :
    (0 + delta.toUInt8 < 64 ∧ (0 + delta.toUInt8).toUInt16 = delta) ∧
      ¬ 64 + delta.toUInt8 < 64 ∧ 64 + delta.toUInt8 < 128 ∧ (64 + delta.toUInt8 - 64).toUInt16 = delta := by
  have hall : ∀ k < 64, (0 + (UInt16.ofNat k).toUInt8 < 64 ∧ (0 + (UInt16.ofNat k).toUInt8).toUInt16 = UInt16.ofNat k) ∧
      ¬ 64 + (UInt16.ofNat k).toUInt8 < 64 ∧ 64 + (UInt16.ofNat k).toUInt8 < 128 ∧
        (64 + (UInt16.ofNat k).toUInt8 - 64).toUInt16 = UInt16.ofNat k := by decide +kernel
  have hk := hall delta.toNat (Nat.lt_succ_of_le (UInt16.le_iff_toNat_le.1 h))
  rwa [UInt16.ofNat_toNat] at hk

theorem chop_count {count : UInt8} (h : (1 ≤ count && count ≤ 3) = true) :
    count = 1 ∨ count = 2 ∨ count = 3 := by
  have hall : ∀ count : UInt8, (1 ≤ count && count ≤ 3) = true → count = 1 ∨ count = 2 ∨ count = 3 :=
    Opcode.forall_of_lt (by decide +kernel)
  exact hall count h

def Frame.trim {L : Type} (frame : Frame L) : Frame L :=
  match frame.kind with
  | .same | .chop _ => ⟨frame.kind, [], []⟩
  | .sameLocals1StackItem => ⟨frame.kind, [], frame.stack⟩
  | .append => ⟨frame.kind, frame.locals, []⟩
  | .full => frame

theorem Frame.trim_of_wellFormed {L : Type} {frame : Frame L} (h : frame.wellFormed = true) : frame.trim = frame := by
  obtain ⟨kind, locals, stack⟩ := frame
  cases kind <;> simp_all [Frame.wellFormed, Frame.trim]

theorem puts_frame (hle : ∀ l, layout.posOf l ≤ length) (delta : UInt16) (frame : Frame Label) :
    Puts full (frame.encode layout delta) fun V bytes =>
      Decodes (Frame.decode V length) bytes (delta, frame.trim.map layout.posOf) := by
  obtain ⟨kind, locals, stack⟩ := frame
  cases kind with
  | same =>
    refine .pure fun V => ?_
    unfold frameStart
    split
    next hd =>
      refine (decodes_u1 _).bind ?_
      rw [if_pos (toUInt16_shortDelta hd).1.1, (toUInt16_shortDelta hd).1.2]
      exact .pure _
    next => exact (decodes_u1 251).bind ((decodes_u2 delta).bind_nil (.pure _))
  | sameLocals1StackItem =>
    rw [Frame.encode]
    simp only
    split
    next t =>
      refine (puts_verificationType hle t).map fun V bytes ht => ?_
      unfold frameStart
      split
      next hd =>
        obtain ⟨-, h₁, h₂, h₃⟩ := toUInt16_shortDelta hd
        refine (decodes_u1 _).bind ?_
        rw [if_neg h₁, if_pos h₂, h₃]
        exact ht.map
      next => exact (decodes_u1 247).bind ((decodes_u2 delta).bind ht.map)
    next => exact PutsIn.throw _
  | chop count =>
    rw [Frame.encode]
    simp only
    split
    next hc =>
      refine .pure fun V => ?_
      rcases chop_count (by simpa using hc) with rfl | rfl | rfl
      · exact (decodes_u1 250).bind ((decodes_u2 delta).bind_nil (.pure _))
      · exact (decodes_u1 249).bind ((decodes_u2 delta).bind_nil (.pure _))
      · exact (decodes_u1 248).bind ((decodes_u2 delta).bind_nil (.pure _))
    next => exact PutsIn.throw _
  | append =>
    rw [Frame.encode]
    simp only
    split
    next hc =>
      simp only [Bool.and_eq_true, decide_eq_true_eq] at hc
      refine (puts_types hle locals).map fun V bytes ht => ?_
      obtain ⟨parts, rfl, ht⟩ := ht
      have hd := Decodes.times ht
      rw [length_map] at hd
      obtain hn | hn | hn : locals.length = 1 ∨ locals.length = 2 ∨ locals.length = 3 := by omega
      all_goals rw [hn] at hd ⊢
      · exact (decodes_u1 252).bind ((decodes_u2 delta).bind hd.map)
      · exact (decodes_u1 253).bind ((decodes_u2 delta).bind hd.map)
      · exact (decodes_u1 254).bind ((decodes_u2 delta).bind hd.map)
    next => exact PutsIn.throw _
  | full =>
    refine (Puts.lift _).bind fun localCount => (puts_types hle locals).bind fun localBytes =>
      (Puts.lift _).bind fun stackCount => (puts_types hle stack).map fun V stackBytes hs hsc hl hlc => ?_
    obtain ⟨parts, rfl, hl⟩ := hl
    obtain ⟨parts', rfl, hs⟩ := hs
    simp only [append_assoc]
    refine (decodes_u1 255).bind ((decodes_u2 delta).bind ?_)
    rw [← append_assoc]
    refine (Decodes.list ?_ hl).bind (Decodes.list ?_ hs).map
    · rwa [length_map]
    · rwa [length_map]

/-! ## The table -/

def rawFrame (layout : Layout) (p : Nat × Frame Label) : UInt16 × Frame UInt16 :=
  (UInt16.ofNat p.1, p.2.trim.map layout.posOf)

theorem frameOffset_of_delta {offset delta : Nat} (h : frameDelta previous offset = .ok delta) (ho : offset < 0x10000) :
    frameOffset (previous.map UInt16.ofNat) (UInt16.ofNat delta) = .ok (UInt16.ofNat offset) := by
  unfold frameDelta at h
  split at h
  next => exact Except.ok.inj h ▸ rfl
  next previous =>
    split at h
    next hlt =>
      obtain rfl := Except.ok.inj h
      have hp : (UInt16.ofNat previous).toNat = previous := UInt16.toNat_ofNat_of_lt' (show previous < 0x10000 by omega)
      have hd : (UInt16.ofNat (offset - previous - 1)).toNat = offset - previous - 1 :=
        UInt16.toNat_ofNat_of_lt' (show _ < 0x10000 by omega)
      rw [Option.map_some, frameOffset, hp, hd, if_pos (by omega), Except.ok.injEq]
      apply UInt16.toNat_inj.1
      rw [UInt16.toNat_add, UInt16.toNat_add, hp, hd, UInt16.toNat_ofNat_of_lt' ho, UInt16.toNat_one]
      omega
    next => exact nomatch h

/-- Each frame stands behind the one before. -/
def FramesAscend (layout : Layout) (previous : Option Nat) (fs : List (Nat × Frame Label)) : Prop :=
  (previous.toList ++ fs.map Prod.fst).IsChain (· < ·) ∧ ∀ f ∈ fs, f.1 < layout.length

theorem FramesAscend.cons {offset delta : Nat} {frame : Frame Label}
    {fs : List (Nat × Frame Label)} (h : FramesAscend layout (some offset) fs)
    (hd : frameDelta previous offset = .ok delta) (ho : offset < layout.length) :
    FramesAscend layout previous ((offset, frame) :: fs) := by
  refine ⟨?_, by simpa [ho] using h.2⟩
  cases previous with
  | none => exact h.1
  | some previous =>
    unfold frameDelta at hd
    simp only at hd
    split at hd
    next hlt => exact .cons_cons hlt h.1
    next => exact nomatch hd

theorem puts_frames (hle : ∀ l, layout.posOf l ≤ length) (hlen : layout.length < 0x10000)
    (fs : List (Nat × Frame Label)) (previous : Option Nat) (done : List Bytes) :
    Puts full (encodeFrames layout previous done fs) fun V parts => ∃ new, parts = done.reverse ++ new ∧
      (∀ found, Decodes (decodeFramesFrom V length fs.length (previous.map UInt16.ofNat) found) new.flatten
        (found.reverse ++ fs.map (rawFrame layout))) ∧ FramesAscend layout previous fs := by
  induction fs generalizing previous done with
  | nil =>
    refine .pure fun V => ⟨[], by simp, fun found => by simpa [decodeFramesFrom] using Decodes.pure _, ?_, by simp⟩
    cases previous with
    | none => exact .nil
    | some previous => exact .singleton previous
  | cons f fs ih =>
    obtain ⟨offset, frame⟩ := f
    rw [encodeFrames]
    split
    next => exact PutsIn.throw _
    next ho =>
      refine (Puts.lift _).bind fun delta => (puts_frame hle _ frame).bind fun bytes =>
        (ih (some offset) (bytes :: done)).mono fun V parts h hb hd => ?_
      obtain ⟨new, rfl, hn, ha⟩ := h
      refine ⟨bytes :: new, by simp, fun found => ?_, ha.cons hd (by omega)⟩
      have ho := frameOffset_of_delta hd (by omega)
      have hrest := hn (rawFrame layout (offset, frame) :: found)
      rw [reverse_cons, append_assoc] at hrest
      exact hb.bind (.lift_bind ho hrest)

theorem puts_frameTable (hle : ∀ l, layout.posOf l ≤ length) (hlen : layout.length < 0x10000) :
    Puts full (encodeFrameTable layout) fun V bytes =>
      Decodes (decodeFrames V length) bytes (layout.frames.map (rawFrame layout)) ∧
        FramesAscend layout none layout.frames := by
  refine (Puts.lift _).bind fun count => (puts_frames hle hlen _ none []).map fun V parts h hc => ?_
  obtain ⟨new, rfl, hn, ha⟩ := h
  obtain ⟨hd, hcount⟩ := count2_eq_ok hc
  refine ⟨hd.bind ?_, ha⟩
  rw [hcount]
  exact hn []

end ClassDoc
