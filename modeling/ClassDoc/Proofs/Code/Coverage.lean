/-
  Frames at the targets of jumps.
-/
import ClassDoc.Proofs.Code.Attribute
import ClassDoc.Proofs.Code.Emission
namespace ClassDoc

open List

/-- A frame stands between the label and the next instruction. -/
def Framed (events : List CodeEvent) (l : Label) : Prop :=
  ∃ before between frame after, events = before ++ .label l :: (between ++ .frame frame :: after) ∧
    ∀ i, CodeEvent.insn i ∉ between

theorem Layout.Fits.mem_frames_of_split {P : Pool} {items before between after : List Item} {layout : Layout}
    {l : Label} {f : Frame Label} (h : layout.Fits P items)
    (heq : items = before ++ .label l :: (between ++ .frame f :: after)) (hb : ∀ i, Item.insn i ∉ between) :
    layout.posOf l ∈ (layout.frames.map (rawFrame layout)).map Prod.fst := by
  have hm := h.items_eq.trans heq
  obtain ⟨xs, ys, hitems, -, hys⟩ := map_eq_append_iff.1 hm
  obtain ⟨x, rest, rfl, hx, hrest⟩ := map_eq_cons_iff.1 hys
  obtain ⟨zs, ws, rfl, rfl, hws⟩ := map_eq_append_iff.1 hrest
  obtain ⟨w, ws, rfl, hw, -⟩ := map_eq_cons_iff.1 hws
  have hlaid := h.laid
  rw [hitems] at hlaid
  obtain ⟨_, -, rfl, n, hn, hlaid⟩ := hlaid.append
  obtain rfl := Placed.hasSize_zero (by simp [hx]) hn
  obtain ⟨_, hzs, ho, -⟩ := hlaid.append
  -- nothing between the label and the frame takes room
  have hoffset := hzs.eq_of_not_insn fun z hz i hi => hb i (hi ▸ mem_map_of_mem hz)
  have hlabel := (h.label_iff l x.offset).2 ⟨x, by simp [hitems], hx, rfl⟩
  refine mem_map.2 ⟨_, mem_map_of_mem (Layout.mem_frames (by simp [hitems]) hw), ?_⟩
  rw [rawFrame, Layout.posOf, hlabel, ho, ← hoffset]
  rfl

theorem Layout.Fits.mem_frames_of_framed {P : Pool} {events : List CodeEvent} {layout : Layout} {l : Label}
    (h : layout.Fits P (Body.ofEvents events).items) (hf : Framed events l) :
    layout.posOf l ∈ (layout.frames.map (rawFrame layout)).map Prod.fst := by
  obtain ⟨before, between, frame, after, rfl, hb⟩ := hf
  have hitems : (Body.ofEvents (before ++ .label l :: (between ++ .frame frame :: after))).items =
      before.filterMap Body.item?
        ++ .label l :: (between.filterMap Body.item? ++ .frame frame :: after.filterMap Body.item?) := by
    simp [Body.ofEvents, Body.item?]
  exact h.mem_frames_of_split hitems fun i hi => hb i (Body.mem_items_ofEvents.1 hi)

/-! ## Targets -/

/-- A conditional jump of the events is read as the opposite one over a wide `goto`, whose target has a frame. -/
def RawCode.SkipsGoto (raw : RawCode) (events : List CodeEvent) (r : UInt16 × Insn UInt16) : Prop :=
  ∃ op target inverse far, .insn (.jump op target) ∈ events ∧ Opcode.inverse? op = some inverse ∧
    r.2 = .jump inverse (r.1 + 8) ∧ (r.1 + 3, .jump Opcode.goto far) ∈ raw.insns ∧ far ∈ raw.frames.map Prod.fst

namespace Body

variable {events : List CodeEvent} {layout : Layout} {P : Pool} {maxs : UInt16 × UInt16}

theorem raw_covered (h : layout.Fits P (Body.ofEvents events).items)
    (hf : ∀ i, .insn i ∈ events → ∀ l ∈ i.targets, Framed events l) {r : UInt16 × Insn UInt16}
    (hr : r ∈ ((Body.ofEvents events).raw layout maxs).insns) {t : UInt16} (ht : t ∈ r.2.targets) :
    t ∈ ((Body.ofEvents events).raw layout maxs).frames.map Prod.fst ∨
      ((Body.ofEvents events).raw layout maxs).SkipsGoto events r ∧ t = r.1 + 8 := by
  obtain ⟨i, wide, pc, hx, hri⟩ := Layout.exists_of_mem_raw hr
  have hi : .insn i ∈ events := Body.mem_items_ofEvents.1 (h.item_mem hx)
  have hcovered : ∀ l ∈ i.targets, layout.posOf l ∈ (layout.frames.map (rawFrame layout)).map Prod.fst :=
    fun l hl => h.mem_frames_of_framed (hf i hi l hl)
  rcases target_of_rawInsns hri ht with ⟨l, hl, rfl⟩ | ⟨rfl, ⟨op, target, inverse, rfl, hinv, rfl⟩, rfl⟩
  · exact .inl (hcovered l hl)
  · have h8 : UInt16.ofNat (pc + 8) = UInt16.ofNat pc + 8 := UInt16.ofNat_add ..
    have h3 : UInt16.ofNat (pc + 3) = UInt16.ofNat pc + 3 := UInt16.ofNat_add ..
    refine .inr ⟨⟨op, target, inverse, layout.posOf target, hi, hinv, by rw [h8], ?_, ?_⟩, h8⟩
    · refine mem_flatMap.2 ⟨_, hx, ?_⟩
      simp [Placed.raw, rawInsns, hinv, h3]
    · exact hcovered target (by simp [Insn.targets])

/-- **If all targets of jumps and switches have a frame before the next instruction, the code is read back so that each
target has a frame, but for the end of a conditional jump that was made wide.** -/
theorem covered_of_framed {access : UInt16} {descriptor : String} {p q : Pool} {bytes : Bytes} (hp : p.WF)
    (hw : (Body.ofEvents events).encode access descriptor p = .ok bytes q)
    (hl : ∀ i, .insn i ∈ events → i.loads = true)
    (hf : ∀ i, .insn i ∈ events → ∀ l ∈ i.targets, Framed events l) (hP : P.WF) (hq : q ≤ P) {V : PoolView}
    (hV : V.Covers true P) :
    Consumes (readRawCode V) bytes [] fun raw => ∀ r ∈ raw.insns, ∀ t ∈ r.2.targets,
      t ∈ raw.frames.map Prod.fst ∨ raw.SkipsGoto events r ∧ t = r.1 + 8 := by
  obtain ⟨layout, maxs, _, hread, hc⟩ := (putsIn_encode access descriptor (loads_items hl) hp hw).seen P V hP hq hV
  refine hc.mono fun raw hr => ?_
  subst hr
  exact fun r hr t ht => raw_covered hread.fits hf hr ht

end Body

/-! ## A jump that is too far -/

namespace Far

def target : Label := ⟨0⟩

/-- A conditional jump over instructions that do nothing, to a label with a frame. -/
def events (n : Nat) : List CodeEvent :=
  [.insn (.var Opcode.iload 0), .insn (.jump Opcode.ifeq target)] ++ List.replicate n (.insn (.simple Opcode.nop))
    ++ [.label target, .frame ⟨.same, [], []⟩, .insn (.simple Opcode.vreturn), .maxs 1 1]

def items (n : Nat) (wide : Bool) : List (Item × Bool) :=
  [(.insn (.var Opcode.iload 0), false), (.insn (.jump Opcode.ifeq target), wide)]
    ++ List.replicate n (.insn (.simple Opcode.nop), false)
    ++ [(.label target, false), (.frame ⟨.same, [], []⟩, false), (.insn (.simple Opcode.vreturn), false)]

def nops (start n : Nat) : List Placed := (List.range' start n).map fun pc => ⟨.insn (.simple Opcode.nop), false, pc⟩

def labelAt (n : Nat) (wide : Bool) : Nat := (if wide then 9 else 4) + n

def layout (n : Nat) (wide : Bool) : Layout where
  items := [⟨.insn (.var Opcode.iload 0), false, 0⟩, ⟨.insn (.jump Opcode.ifeq target), wide, 1⟩]
    ++ nops (if wide then 9 else 4) n
    ++ [⟨.label target, false, labelAt n wide⟩, ⟨.frame ⟨.same, [], []⟩, false, labelAt n wide⟩,
      ⟨.insn (.simple Opcode.vreturn), false, labelAt n wide⟩]
  labels := ({} : Std.HashMap Label Nat).insert target (labelAt n wide)
  length := labelAt n wide + 1

theorem ofEvents_events (n : Nat) :
    Body.ofEvents (events n) = { items := (items n false).map Prod.fst, maxs := some (1, 1) } := by
  simp only [Body.ofEvents, events, items, filterMap_append, filterMap_replicate, filterMap_cons,
    filterMap_nil, map_append, map_replicate, map_cons, map_nil, Body.item?, Body.tryCatch?,
    Body.lineNumber?, Body.localVariable?, Body.annotatedType?, Body.maxs?, append_nil, nil_append,
    getLast?_singleton]

theorem foldlM_place_nops (n : Nat) (start : Layout) (P : Pool) :
    (List.replicate n (Item.insn (.simple Opcode.nop), false)).foldlM Layout.place start P = .ok { start with
      items := (nops start.length n).reverse ++ start.items
      length := start.length + n } P := by
  induction n generalizing start with
  | zero => rfl
  | succ n ih =>
    rw [replicate_succ, foldlM_cons]
    refine run_bind_eq_ok.2 ⟨_, P, rfl, (ih _).trans ?_⟩
    simp [nops, List.range'_succ, Nat.add_assoc, Nat.add_comm 1 n]

theorem place_label {start : Layout} {l : Label} (h : start.labels.contains l = false) (P : Pool) :
    start.place (.label l, false) P = .ok { start with
      items := ⟨.label l, false, start.length⟩ :: start.items
      labels := start.labels.insert l start.length } P := by
  rw [Layout.place]
  simp only [h]
  rfl

theorem round_items (n : Nat) (wide : Bool) (P : Pool) : Layout.round (items n wide) P = .ok (layout n wide) P := by
  have hstart : [(Item.insn (.var Opcode.iload 0), false), (.insn (.jump Opcode.ifeq target), wide)].foldlM
      Layout.place {} P = .ok {
        items := [⟨.insn (.jump Opcode.ifeq target), wide, 1⟩, ⟨.insn (.var Opcode.iload 0), false, 0⟩]
        length := if wide then 9 else 4 } P := by
    cases wide <;> rfl
  have hplace : (items n wide).foldlM Layout.place {} P = .ok {
      items := (layout n wide).items.reverse
      labels := (layout n wide).labels
      length := (layout n wide).length } P := by
    rw [items, foldlM_append, foldlM_append]
    refine run_bind_eq_ok.2 ⟨_, P, run_bind_eq_ok.2 ⟨_, P, hstart, foldlM_place_nops n _ P⟩, ?_⟩
    refine run_bind_eq_ok.2 ⟨_, P, place_label (by simp) P, ?_⟩
    refine run_bind_eq_ok.2 ⟨_, P, rfl, run_bind_eq_ok.2 ⟨_, P, rfl, ?_⟩⟩
    simp [layout, labelAt]
    rfl
  refine run_bind_eq_ok.2 ⟨_, P, hplace, ?_⟩
  rw [reverse_reverse]
  rfl

theorem position_target (n : Nat) (wide : Bool) : (layout n wide).position target = .ok (labelAt n wide) := by
  rw [Layout.position, layout, Std.HashMap.getElem?_insert_self]

theorem forall₂_nops {r : Placed → Item × Bool → Prop} (n start : Nat)
    (h : ∀ pc, r ⟨.insn (.simple Opcode.nop), false, pc⟩ (.insn (.simple Opcode.nop), false)) :
    Forall₂ r (nops start n) (List.replicate n (.insn (.simple Opcode.nop), false)) := by
  induction n generalizing start with
  | zero => exact .nil
  | succ n ih =>
    rw [nops, List.range'_succ, replicate_succ]
    exact .cons (h start) (ih (start + 1))

variable {n : Nat}

theorem widen_layout (hn : 32765 ≤ n) (wide : Bool) : (layout n wide).widen = .ok (items n true) := by
  have hjump : (layout n wide).mustBeWide ⟨.insn (.jump Opcode.ifeq target), wide, 1⟩ = .ok true := by
    cases wide with
    | true => rfl
    | false =>
      have hfar : Layout.isShort ((labelAt n false : Int) - 1) = false := by
        simp [Layout.isShort, labelAt]
        omega
      simp only [Layout.mustBeWide, Layout.distance, position_target, ok_bind]
      simp [hfar]
  rw [Layout.widen, mapM_eq_ok_iff]
  apply rel_append
  · apply rel_append
    · refine .cons rfl (.cons ?_ .nil)
      rw [hjump]
      rfl
    · exact forall₂_nops n _ fun _ => rfl
  · exact .cons rfl (.cons rfl (.cons rfl .nil))

theorem map_wide_layout (n : Nat) (wide : Bool) :
    (layout n wide).items.map Placed.wide = (items n wide).map Prod.snd := by
  have hnops : ∀ start, (nops start n).map Placed.wide = List.replicate n false := by
    simp [nops, Function.comp_def]
  simp [layout, items, hnops]

theorem of_items (hn : 32765 ≤ n) (hlt : n < 65000) (P : Pool) :
    Layout.of ((items n false).map Prod.fst) P = .ok (layout n true) P := by
  have hfalse : ((items n false).map Prod.fst).map (fun item => (item, false)) = items n false := by
    simp [items]
  have hlength : ((items n false).map Prod.fst).length = n + 3 + 2 := by simp [items]
  have hfirst : (layout n false).isSettled (items n true) = false := by
    rw [Layout.isSettled, map_wide_layout]
    simp [items]
  have hsecond : (layout n true).isSettled (items n true) = true := by
    rw [Layout.isSettled, map_wide_layout, beq_self_eq_true]
  have hsettle : Layout.settle (n + 3 + 2) (items n false) P = .ok (layout n true) P := by
    refine run_bind_eq_ok.2 ⟨_, P, round_items n false P, ?_⟩
    refine run_bind_eq_ok.2 ⟨_, P, run_lift_eq_ok.2 ⟨widen_layout hn false, rfl⟩, ?_⟩
    rw [hfirst]
    refine run_bind_eq_ok.2 ⟨_, P, round_items n true P, ?_⟩
    refine run_bind_eq_ok.2 ⟨_, P, run_lift_eq_ok.2 ⟨widen_layout hn true, rfl⟩, ?_⟩
    rw [hsecond]
    rfl
  rw [Layout.of, hfalse, hlength]
  refine run_bind_eq_ok.2 ⟨_, P, hsettle, ?_⟩
  rw [if_neg (by simp [layout, labelAt]; omega)]
  rfl

theorem insn_of_mem_events {i : Insn Label} (hi : .insn i ∈ events n) :
    i = .var Opcode.iload 0 ∨ i = .jump Opcode.ifeq target ∨ i = .simple Opcode.nop ∨ i = .simple Opcode.vreturn := by
  simp only [events, mem_append, mem_cons, mem_replicate, not_mem_nil, or_false, reduceCtorEq,
    false_or, CodeEvent.insn.injEq] at hi
  rcases hi with ((rfl | rfl) | ⟨-, rfl⟩) | rfl
  all_goals simp

theorem loads_events (n : Nat) : ∀ i, .insn i ∈ events n → i.loads = true := by
  intro i hi
  rcases insn_of_mem_events hi with rfl | rfl | rfl | rfl <;> rfl

theorem framed_events (n : Nat) : ∀ i, .insn i ∈ events n → ∀ l ∈ i.targets, Framed (events n) l := by
  intro i hi l hl
  rcases insn_of_mem_events hi with rfl | rfl | rfl | rfl
  · cases hl
  · obtain rfl := mem_singleton.1 hl
    exact ⟨_, [], ⟨.same, [], []⟩, [.insn (.simple Opcode.vreturn), .maxs 1 1], rfl, by simp⟩
  · cases hl
  · cases hl

theorem exists_emit (n : Nat) (P : Pool) : ∃ code, (layout n true).emit P = .ok code P := by
  have hmap : ∀ xs : List Placed, (∀ x ∈ xs, ∃ b, x.emit (layout n true) P = .ok b P) →
      ∃ parts, xs.mapM (Placed.emit (layout n true)) P = .ok parts P := by
    intro xs hxs
    induction xs with
    | nil => exact ⟨[], rfl⟩
    | cons x xs ih =>
      obtain ⟨b, hb⟩ := hxs x (by simp)
      obtain ⟨parts, hp⟩ := ih fun y hy => hxs y (by simp [hy])
      rw [mapM_cons]
      exact ⟨_, run_bind_eq_ok.2 ⟨_, P, hb, run_bind_eq_ok.2 ⟨_, P, hp, rfl⟩⟩⟩
  have hd : (layout n true).distance 4 target = .ok (labelAt n true - 4) := by
    rw [Layout.distance, position_target]
    rfl
  have hjump : emitJump (layout n true) 1 true Opcode.ifeq target =
      .ok ((Opcode.ifeq + 1) :: (Bytes.u2 8 ++ Opcode.gotoW :: Bytes.u4 (Int32.ofInt (labelAt n true - 4)).toUInt32)) := by
    simp only [emitJump, emitDistance, hd]
    rfl
  have hitems : ∀ x ∈ (layout n true).items, ∃ b, x.emit (layout n true) P = .ok b P := by
    intro x hx
    simp only [layout, nops, mem_append, mem_cons, mem_map, not_mem_nil, or_false] at hx
    rcases hx with ((rfl | rfl) | ⟨pc, -, rfl⟩) | rfl | rfl | rfl
    · exact ⟨_, rfl⟩
    · exact ⟨_, inPlace_eq_ok.2 (run_lift_eq_ok.2 ⟨hjump, rfl⟩)⟩
    all_goals exact ⟨_, rfl⟩
  obtain ⟨parts, hp⟩ := hmap _ hitems
  exact ⟨_, run_bind_eq_ok.2 ⟨_, P, hp, rfl⟩⟩

theorem frames_layout (n : Nat) : (layout n true).frames = [(labelAt n true, ⟨.same, [], []⟩)] := by
  simp [Layout.frames, layout, nops, filterMap_map]

theorem encodeFrameTable_layout (n : Nat) (q : Pool) : encodeFrameTable (layout n true) q
    = .ok (Bytes.u2 1 ++ frameStart 0 251 (UInt16.ofNat (labelAt n true))) q := by
  have hencode : encodeFrames (layout n true) none [] [(labelAt n true, ⟨.same, [], []⟩)] q
      = .ok [frameStart 0 251 (UInt16.ofNat (labelAt n true))] q := by
    rw [encodeFrames, if_neg (by simp [layout])]
    rfl
  rw [encodeFrameTable, frames_layout]
  refine run_bind_eq_ok.2 ⟨Bytes.u2 1, q, rfl, run_bind_eq_ok.2 ⟨_, q, hencode, ?_⟩⟩
  rw [flatten_singleton]
  rfl

theorem exists_attributes (n : Nat) :
    ∃ attributes q, ({ items := (items n false).map Prod.fst, maxs := some (1, 1) } : Body).attributes (layout n true) {}
      = .ok attributes q ∧ ∃ bytes, Attribute.encodeAll attributes = .ok bytes := by
  have hany : ((items n false).map Prod.fst).any Item.isFrame = true := by simp [items, Item.isFrame]
  have hname := Pool.put_new (e := .utf8 (.ofString Attribute.stackMapTableName)) (p := {}) (by simp)
    (by simp [PoolEntry.slots, PoolEntry.isWide])
  have hlength : ∀ delta : UInt16, (Bytes.u2 1 ++ frameStart 0 251 delta).length < 0x100000000 := by
    intro delta
    unfold frameStart
    split <;> simp [Bytes.u2]
  obtain ⟨q, hmake⟩ : ∃ q, Attribute.makeIf (((items n false).map Prod.fst).any Item.isFrame)
      Attribute.stackMapTableName (encodeFrameTable (layout n true)) {}
      = .ok [⟨1, Bytes.u2 1 ++ frameStart 0 251 (UInt16.ofNat (labelAt n true))⟩] q := by
    rw [hany]
    exact ⟨_, run_bind_eq_ok.2 ⟨_, _, run_bind_eq_ok.2 ⟨_, _, hname, run_bind_eq_ok.2
      ⟨_, _, inPlace_eq_ok.2 (encodeFrameTable_layout n _), rfl⟩⟩, rfl⟩⟩
  refine ⟨_, q, run_bind_eq_ok.2 ⟨_, _, hmake, rfl⟩, ?_⟩
  simp only [append_nil, Attribute.encodeAll, Attribute.encode, Bytes.count4, if_pos (hlength _), mapM_cons,
    mapM_nil]
  exact ⟨_, rfl⟩

theorem exists_encode (hn : 32765 ≤ n) (hlt : n < 65000) :
    ∃ bytes q, (Body.ofEvents (events n)).encode 8 "(I)V" {} = .ok bytes q := by
  have hlayout := of_items hn hlt {}
  obtain ⟨code, hcode⟩ := exists_emit n {}
  obtain ⟨attributes, q, hattributes, parts, hparts⟩ := exists_attributes n
  rw [ofEvents_events]
  have hfits := (grows_layout _ hlayout).2 {} (.refl {})
  obtain ⟨blocks, _, hblocks, hflat⟩ := run_bind_eq_ok.1 hcode
  have hlength : code.length = (layout n true).length := (EStateM.Result.ok.inj hflat).1 ▸ (hfits.hasParts hblocks).2
  have hcount : Bytes.count4 code.length = .ok (Bytes.u4 (UInt32.ofNat code.length)) :=
    if_pos (by have := hfits.lt; omega)
  exact ⟨_, q, run_bind_eq_ok.2 ⟨_, _, hlayout, run_bind_eq_ok.2 ⟨_, _, hcode, run_bind_eq_ok.2 ⟨(1, 1), _, rfl,
    run_bind_eq_ok.2 ⟨_, _, run_lift_eq_ok.2 ⟨hcount, rfl⟩, run_bind_eq_ok.2 ⟨_, _, rfl, run_bind_eq_ok.2
      ⟨_, _, hattributes, run_bind_eq_ok.2 ⟨_, _, run_lift_eq_ok.2 ⟨hparts, rfl⟩, rfl⟩⟩⟩⟩⟩⟩⟩⟩

theorem exists_read (hn : 32765 ≤ n) (hlt : n < 65000) : ∃ bytes q V,
    (Body.ofEvents (events n)).encode 8 "(I)V" {} = .ok bytes q ∧ q.WF ∧ V.Covers true q ∧
      ∃ maxs, Consumes (readRawCode V) bytes [] (· = (Body.ofEvents (events n)).raw (layout n true) maxs) := by
  obtain ⟨bytes, q, hw⟩ := exists_encode hn hlt
  have hstep := Body.putsIn_encode 8 "(I)V" (Body.loads_items (loads_events n)) Pool.wf_empty hw
  obtain ⟨methods, hm⟩ := hstep.wf.exists_methods
  have hV := Pool.covers_of_methods true hm
  obtain ⟨placed, maxs, _, hread, hc⟩ := hstep.seen q _ hstep.wf le_rfl hV
  have hplaced := hread.layout_eq
  rw [ofEvents_events, of_items hn hlt] at hplaced
  obtain ⟨rfl, -⟩ := EStateM.Result.ok.inj hplaced
  exact ⟨bytes, q, _, hw, hstep.wf, hV, maxs, hc⟩

theorem covered_of_framed_far : ∃ bytes q V, (Body.ofEvents (events 32765)).encode 8 "(I)V" {} = .ok bytes q ∧
    V.Covers true q ∧ Consumes (readRawCode V) bytes [] fun raw => ∀ r ∈ raw.insns, ∀ t ∈ r.2.targets,
      t ∈ raw.frames.map Prod.fst ∨ raw.SkipsGoto (events 32765) r ∧ t = r.1 + 8 := by
  obtain ⟨bytes, q, V, hw, hq, hV, -⟩ := exists_read (n := 32765) (by decide) (by decide)
  exact ⟨bytes, q, V, hw, hV,
    Body.covered_of_framed Pool.wf_empty hw (loads_events _) (framed_events _) hq le_rfl hV⟩

/-- The jump is read as the opposite one over a wide `goto`, and where it ends there is no frame. -/
theorem uncovered_far : (∀ i, .insn i ∈ events 32765 → ∀ l ∈ i.targets, Framed (events 32765) l) ∧
    (Body.ofEvents (events 32765)).handlers = [] ∧
    ∃ bytes q V, (Body.ofEvents (events 32765)).encode 8 "(I)V" {} = .ok bytes q ∧ V.Covers true q ∧
      Consumes (readRawCode V) bytes [] fun raw =>
        ∃ r ∈ raw.insns, ∃ t ∈ r.2.targets, t ∉ raw.frames.map Prod.fst := by
  obtain ⟨bytes, q, V, hw, -, hV, maxs, hc⟩ := exists_read (n := 32765) (by decide) (by decide)
  refine ⟨framed_events _, by rw [ofEvents_events]; rfl, bytes, q, V, hw, hV, hc.mono fun raw hraw => ?_⟩
  subst hraw
  refine ⟨(1, .jump (Opcode.ifeq + 1) 9), ?_, 9, by simp [Insn.targets], ?_⟩
  · refine mem_flatMap.2 ⟨⟨.insn (.jump Opcode.ifeq target), true, 1⟩, by simp [layout], ?_⟩
    exact mem_cons_self
  · simp only [Body.raw, frames_layout, map_cons, map_nil, rawFrame]
    decide

end Far

end ClassDoc
