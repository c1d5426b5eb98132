/-
  The layout of code and the bytes that it is written as agree, in any pool.
-/
import ClassDoc.Proofs.Code.Bytecode
namespace ClassDoc

open List

variable {layout : Layout} {P q r : Pool} {items : List Item} {x : Placed} {xs : List Placed} {start stop : Nat}
  {parts : List Bytes} {code bytes : Bytes}

theorem Placed.HasSize.keeps {n : Nat} (h : x.HasSize q n) (hk : q.Keeps P) : x.HasSize P n := by
  obtain ⟨item, wide, offset⟩ := x
  cases item with
  | insn i => exact (repeats_size offset wide i h).2 P hk
  | label | frame => exact h

theorem Laid.offset_eq (hl : Laid P start xs stop) (hp : Forall₂ (fun x bytes => x.HasSize P bytes.length) xs parts)
    {i : Nat} (hx : xs[i]? = some x) : x.offset = start + (parts.take i).flatten.length := by
  induction hp generalizing start i with
  | nil => simp at hx
  | @cons y bytes ys parts hy _ ih =>
    obtain ⟨rfl, n, hn, hl⟩ := hl
    obtain rfl := hn.unique hy
    cases i with
    | zero =>
      obtain rfl : y = x := by simpa using hx
      simp
    | succ i =>
      rw [ih hl (by simpa using hx), take_succ_cons, flatten_cons, length_append, Nat.add_assoc]

/-! ## Jumps and switches -/

def Item.isJump : Item → Bool
  | .insn (.jump _ _) => true
  | _ => false

theorem countP_isShortJump (items : List Item) :
    (items.map fun item => (item, false)).countP Item.isShortJump = items.countP Item.isJump := by
  rw [countP_map]
  refine countP_congr fun item _ => ?_
  cases item with
  | insn i => cases i <;> rfl
  | label | frame => rfl

def Insn.default? : Insn Label → Option Label
  | tableSwitch _ _ default _ | lookupSwitch default _ => some default
  | _ => none

theorem prefix_of_emitSwitch {pc : Nat} {wide : Bool} {i : Insn Label} {l : Label} (hi : i.default? = some l)
    (h : i.emit layout pc wide q = .ok bytes r) :
    ∃ d, emitDistance layout pc l = .ok d ∧ d <+: bytes.drop (1 + switchPadding pc) := by
  have hdrop : ∀ (op : UInt8) (d rest : Bytes),
      d <+: (op :: (replicate (switchPadding pc) 0 ++ (d ++ rest))).drop (1 + switchPadding pc) := by
    intro op d rest
    rw [Nat.add_comm, drop_succ_cons, drop_left' length_replicate]
    exact prefix_append d rest
  cases i with
  | tableSwitch low high default targets =>
    cases hi
    obtain ⟨-, -, d, ts, hd, -, rfl⟩ := emitTable_eq_ok (run_lift_eq_ok.1 h).1
    simp only [append_assoc]
    exact ⟨d, hd, hdrop _ _ _⟩
  | lookupSwitch default pairs =>
    cases hi
    obtain ⟨d, count, ps, hd, -, -, rfl, -⟩ := emitLookup_eq_ok (run_lift_eq_ok.1 h).1
    simp only [append_assoc]
    exact ⟨d, hd, hdrop _ _ _⟩
  | _ => cases hi

/-! ## All of the code -/

/-- The items are emitted as `parts`, and each stands where those before it end. -/
structure Layout.HasParts (layout : Layout) (q r : Pool) (parts : List Bytes) : Prop where
  emitted : layout.items.mapM (Placed.emit layout) q = .ok parts r
  size : Forall₂ (fun x bytes => ∀ P, q.Keeps P → x.HasSize P bytes.length) layout.items parts
  offset_eq : ∀ i (x : Placed), layout.items[i]? = some x → x.offset = (parts.take i).flatten.length

/-- The code stands where the layout of the items says. -/
structure Layout.Emits (layout : Layout) (q r : Pool) (items : List Item) (code : Bytes) : Prop where
  items_eq : layout.items.map Placed.item = items
  parts : ∃ parts, layout.HasParts q r parts ∧ code = parts.flatten
  length_eq : code.length = layout.length
  pos : 1 ≤ layout.length
  le : layout.length ≤ 65535
  label : ∀ (l : Label) n, layout.labels[l]? = some n →
    (∃ x ∈ layout.items, (∃ i, x.item = .insn i) ∧ x.offset = n) ∨ n = code.length
  jump : ∀ x ∈ layout.items, ∀ op target, x.item = .insn (.jump op target) → x.wide = false →
    ∃ d, layout.distance x.offset target = .ok d ∧ -0x8000 ≤ d ∧ d < 0x8000
  switch : ∀ x ∈ layout.items, ∀ i l, x.item = .insn i → i.default? = some l →
    (x.offset + 1 + switchPadding x.offset) % 4 = 0 ∧
      ∃ d, emitDistance layout x.offset l = .ok d ∧ d <+: code.drop (x.offset + 1 + switchPadding x.offset)

theorem Layout.Fits.hasParts (h : layout.Fits q items) (he : layout.items.mapM (Placed.emit layout) q = .ok parts r) :
    layout.HasParts q r parts ∧ parts.flatten.length = layout.length := by
  obtain ⟨hk, hr⟩ := Grows.mapM (fun x _ => grows_placedEmit layout x) he
  obtain ⟨hlen, hsize⟩ := forall₂_iff_zip.1 (hr r (.refl r))
  -- the size that an item was placed with is its size still when it is emitted
  have hq : Forall₂ (fun x bytes => x.HasSize q bytes.length) layout.items parts := by
    refine forall₂_iff_zip.2 ⟨hlen, fun {x bytes} hx => ?_⟩
    obtain ⟨n, hn, -⟩ := h.laid.offset_add_le (of_mem_zip hx).1
    exact (hn.keeps hk.toKeeps).unique (hsize hx) ▸ hn
  refine ⟨⟨he, hq.imp fun _ _ hx P (hP : q.Keeps P) => hx.keeps hP, fun i x hx => ?_⟩, ?_⟩
  · rw [h.laid.offset_eq hq hx, Nat.zero_add]
  · rw [← h.laid.length_eq hq, Nat.zero_add]

theorem Layout.HasParts.exists_emit (h : layout.HasParts q r parts) (hx : x ∈ layout.items) :
    ∃ p p' bytes, x.emit layout p = .ok bytes p' ∧ bytes <+: parts.flatten.drop x.offset := by
  have hruns : ∀ y ∈ layout.items, Grows (Placed.emit layout y) fun _ bytes =>
      ∃ p p', y.emit layout p = .ok bytes p' :=
    fun y _ p _ p' hy => ⟨(grows_placedEmit layout y hy).1, fun _ _ => ⟨p, p', hy⟩⟩
  obtain ⟨hlen, hall⟩ := forall₂_iff_zip.1 ((Grows.mapM hruns h.emitted).2 r (.refl r))
  obtain ⟨i, hi⟩ := mem_iff_getElem?.1 hx
  obtain ⟨hlt, -⟩ := List.getElem?_eq_some_iff.1 hi
  have hbytes : parts[i]? = some parts[i] := getElem?_eq_getElem (hlen ▸ hlt)
  obtain ⟨p, p', he⟩ := hall (mem_iff_getElem?.2 ⟨i, getElem?_zip_eq_some.2 ⟨hi, hbytes⟩⟩)
  refine ⟨p, p', parts[i], he, ?_⟩
  have hsplit : parts.flatten = (parts.take i).flatten ++ (parts[i] ++ (parts.drop (i + 1)).flatten) := by
    rw [← flatten_cons, getElem_cons_drop, ← flatten_append, take_append_drop]
  rw [hsplit, h.offset_eq i x hi, drop_left]
  exact prefix_append _ _

/-- **The layout of code and its bytes agree.** -/
theorem Layout.emits_of_layout (items : List Item) (p : Pool) :
    (∃ n ≤ items.countP Item.isJump + 1, Layout.EndsAfter n (items.map fun item => (item, false)) p
      (Layout.settle items.length (items.map fun item => (item, false)) p)) ∧
    ∀ layout q code r, Layout.of items p = .ok layout q → layout.emit q = .ok code r →
      layout.Emits q r items code := by
  have hle : (items.map fun item => (item, false)).countP Item.isShortJump ≤ items.length :=
    countP_le_length.trans_eq (length_map _)
  refine ⟨countP_isShortJump items ▸ Layout.exists_endsAfter p hle, fun layout q code r hlayout hemit => ?_⟩
  have hf := (grows_layout items hlayout).2 q (.refl q)
  obtain ⟨parts, r', hparts, hcode⟩ := run_bind_eq_ok.1 hemit
  cases hcode
  obtain ⟨hp, hlen⟩ := hf.hasParts hparts
  refine ⟨hf.items_eq, ⟨parts, hp, rfl⟩, hlen, hf.pos, Nat.le_of_lt_succ hf.lt, ?_, ?_, ?_⟩
  · intro l n hl
    obtain ⟨x, hx, -, rfl⟩ := (hf.label_iff l n).1 hl
    obtain ⟨size, hsize, -⟩ := hf.laid.offset_add_le hx
    exact hlen ▸ (hf.laid.boundary hx hsize).1
  · intro x hx op target hi hw
    obtain ⟨d, hd, hs⟩ := hf.settled x hx op target hi hw
    rw [Layout.isShort, Bool.and_eq_true, decide_eq_true_eq, decide_eq_true_eq] at hs
    exact ⟨d, hd, hs⟩
  · intro x hx i l hi hl
    have hmod : (x.offset + 1 + switchPadding x.offset) % 4 = 0 := by
      rw [switchPadding]
      omega
    obtain ⟨p, p', bytes, hb, hpre⟩ := hp.exists_emit hx
    rw [Placed.emit, hi] at hb
    obtain ⟨d, hd, hdrop⟩ := prefix_of_emitSwitch hl (inPlace_eq_ok.1 hb)
    refine ⟨hmod, d, hd, hdrop.trans ?_⟩
    rw [Nat.add_assoc, ← drop_drop (i := 1 + _)]
    exact hpre.drop _

/-- A jump back over a switch that jumps over it. -/
def switched : List Item :=
  [.label ⟨0⟩, .insn (.simple 3), .insn (.lookupSwitch ⟨1⟩ [(7, ⟨0⟩), (-2, ⟨1⟩)]), .insn (.jump Opcode.goto ⟨0⟩), .label ⟨1⟩,
    .insn (.simple 177)]

theorem Layout.emits_of_layout_switched : ∃ layout q code r, Layout.of switched {} = .ok layout q ∧
    layout.emit q = .ok code r ∧ code.length = 32 ∧ layout.Emits q r switched code := by
  obtain ⟨code, r, h, hlen⟩ := exists_of_succeeds (r := (Layout.of switched >>= Layout.emit) {})
    (p := fun code _ => code.length = 32) (by cbv)
  obtain ⟨layout, q, hlayout, hemit⟩ := run_bind_eq_ok.1 h
  exact ⟨layout, q, code, r, hlayout, hemit, of_decide_eq_true hlen,
    (emits_of_layout switched {}).2 layout q code r hlayout hemit⟩

end ClassDoc
