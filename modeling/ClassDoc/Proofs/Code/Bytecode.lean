/-
  All instructions of a layout are read back from the bytes of the code.
-/
import ClassDoc.Proofs.Code.Emit
namespace ClassDoc

open List

/-! ## Reading -/

variable {layout : Layout} {P : Pool} {items : List Item} {V : PoolView} {r : UInt16 × Insn UInt16} {x : Placed}
  {xs : List Placed} {length : UInt16} {pc : Nat}

theorem forM_checkOffset {offsets : List UInt16} (h : ∀ o ∈ offsets, o ≤ length) :
    offsets.forM (checkOffset length) = .ok () := by
  rw [forM_eq_ok]
  intro o ho
  rw [checkOffset, if_neg (UInt16.not_lt.2 (h o ho))]

theorem decodeInsnsFrom_eq {bytes : Bytes} {is : List (UInt16 × Insn UInt16)} (h : DecodesInsns V pc bytes is)
    (ht : ∀ r ∈ is, ∀ t ∈ r.2.targets, t ≤ length) (fuel : Nat) (hf : bytes.length ≤ fuel)
    (found : List (UInt16 × Insn UInt16)) :
    decodeInsnsFrom V length fuel found ⟨bytes, pc⟩ = .ok (found.reverse ++ is) := by
  induction h generalizing fuel found with
  | nil pc => cases fuel <;> simp [decodeInsnsFrom]
  | @cons pc op bytes rest i is first _ ih =>
    cases fuel with
    | zero => simp at hf
    | succ fuel =>
      have hd : Insn.decode V (UInt16.ofNat pc) ⟨op :: bytes ++ rest, pc⟩
          = .ok (i, ⟨rest, pc + (bytes.length + 1)⟩) :=
        ((decodes_u1 op).bind first) rest pc
      simp only [length_append, length_cons] at hf
      rw [decodeInsnsFrom, if_neg (by simp)]
      simp only [hd, within_ok, forM_checkOffset (ht _ mem_cons_self)]
      rw [ih (fun r hr => ht r (mem_cons_of_mem _ hr)) fuel (by omega)]
      simp

/-! ## Writing -/

def Placed.raw (layout : Layout) (x : Placed) : List (UInt16 × Insn UInt16) :=
  match x.item with
  | .insn i => rawInsns layout x.offset x.wide i
  | _ => []

def Layout.raw (layout : Layout) : List (UInt16 × Insn UInt16) := layout.items.flatMap (Placed.raw layout)

def Placed.Emitted (layout : Layout) (P : Pool) (V : PoolView) (x : Placed) (bytes : Bytes) : Prop :=
  x.HasSize P bytes.length ∧ (x.offset + bytes.length < 0x10000 → DecodesInsns V x.offset bytes (x.raw layout))

theorem Placed.HasSize.unique {n k : Nat} (h : x.HasSize P n) (h' : x.HasSize P k) : n = k := by
  obtain ⟨item, wide, offset⟩ := x
  cases item with
  | insn i => exact (EStateM.Result.ok.inj (Eq.trans (Eq.symm h) h')).1
  | label | frame => exact Eq.trans h (Eq.symm h')

theorem grows_placedEmit (layout : Layout) (x : Placed) :
    Grows (x.emit layout) fun P bytes => x.HasSize P bytes.length := by
  obtain ⟨item, wide, offset⟩ := x
  cases item with
  | insn i => exact (grows_emit i).inPlace _
  | label | frame => exact .pure fun _ => rfl

theorem putsIn_placedEmit (hlow : layout.Low) (hs : layout.Settled) (hx : x ∈ layout.items) (hl : x.item.loads = true) :
    PutsIn true (x.emit layout) fun P V bytes => x.Emitted layout P V bytes := by
  obtain ⟨item, wide, offset⟩ := x
  cases item with
  | insn i =>
    have h : PutsIn true (i.emit layout offset wide) _ :=
      putsIn_emit hlow i hl fun op target hi hw => hs _ hx op target (by rw [hi]) hw
    exact (((grows_emit i).putsIn h).and h).inPlace _
  | label | frame => exact .pure fun P V => ⟨rfl, fun _ => .nil _⟩

theorem Laid.length_eq {start stop : Nat} {parts : List Bytes} (hl : Laid P start xs stop)
    (hp : Forall₂ (fun x bytes => x.HasSize P bytes.length) xs parts) : start + parts.flatten.length = stop := by
  induction hp generalizing start with
  | nil => exact hl
  | cons hx _ ih =>
    obtain ⟨-, n, hn, hl⟩ := hl
    obtain rfl := hn.unique hx
    rw [flatten_cons, length_append, ← Nat.add_assoc]
    exact ih hl

theorem Laid.decodes {start stop : Nat} {parts : List Bytes} (hl : Laid P start xs stop) (hstop : stop < 0x10000)
    (hp : Forall₂ (fun x bytes => Placed.Emitted layout P V x bytes) xs parts) :
    DecodesInsns V start parts.flatten (xs.flatMap (Placed.raw layout)) := by
  induction hp generalizing start with
  | nil => exact .nil _
  | @cons x bytes xs parts hx _ ih =>
    obtain ⟨rfl, n, hn, hl⟩ := hl
    obtain rfl := hn.unique hx.1
    exact (hx.2 (Nat.lt_of_le_of_lt hl.le hstop)).append (ih hl)

theorem Laid.offset_add_le {start stop : Nat} (h : Laid P start xs stop)
    (hx : x ∈ xs) : ∃ n, x.HasSize P n ∧ x.offset + n ≤ stop := by
  induction xs generalizing start with
  | nil => simp at hx
  | cons y xs ih =>
    obtain ⟨ho, n, hn, h⟩ := h
    rcases mem_cons.1 hx with rfl | hx
    · exact ⟨n, hn, ho ▸ h.le⟩
    · exact ih h hx

def InsnAt (xs : List Placed) (n : Nat) : Prop := ∃ y ∈ xs, (∃ i, y.item = .insn i) ∧ y.offset = n

theorem InsnAt.cons {n : Nat} (h : InsnAt xs n) : InsnAt (x :: xs) n := by
  obtain ⟨y, hy, hi⟩ := h
  exact ⟨y, mem_cons_of_mem x hy, hi⟩

theorem Laid.starts {start stop : Nat} (h : Laid P start xs stop) : InsnAt xs start ∨ start = stop := by
  induction xs generalizing start with
  | nil => exact .inr h
  | cons y xs ih =>
    obtain ⟨rfl, n, hn, h⟩ := h
    by_cases hy : ∃ i, y.item = .insn i
    · exact .inl ⟨y, mem_cons_self, hy, rfl⟩
    · obtain rfl := Placed.hasSize_zero (fun i hi => hy ⟨i, hi⟩) hn
      exact (ih h).imp_left .cons

theorem Laid.boundary {start stop n : Nat} (h : Laid P start xs stop) (hx : x ∈ xs) (hn : x.HasSize P n) :
    (InsnAt xs x.offset ∨ x.offset = stop) ∧ (InsnAt xs (x.offset + n) ∨ x.offset + n = stop) := by
  induction xs generalizing start with
  | nil => simp at hx
  | cons y xs ih =>
    have hs := h.starts
    obtain ⟨rfl, k, hk, h⟩ := h
    rcases mem_cons.1 hx with rfl | hx
    · obtain rfl := hn.unique hk
      exact ⟨hs, h.starts.imp_left .cons⟩
    · obtain ⟨h₁, h₂⟩ := ih h hx
      exact ⟨h₁.imp_left .cons, h₂.imp_left .cons⟩

theorem Layout.Fits.low (h : layout.Fits P items) : layout.Low := by
  intro l n hn
  obtain ⟨x, hx, -, rfl⟩ := (h.label_iff l n).1 hn
  have := (h.laid.offset_le hx).2
  have := h.lt
  omega

theorem ofNat_le_ofNat {m n : Nat} (h : m ≤ n) (hn : n < 0x10000) : UInt16.ofNat m ≤ UInt16.ofNat n := by
  rw [UInt16.le_iff_toNat_le, UInt16.toNat_ofNat_of_lt' (Nat.lt_of_le_of_lt h hn), UInt16.toNat_ofNat_of_lt' hn]
  exact h

theorem Layout.Fits.posOf_le (h : layout.Fits P items) (l : Label) : layout.posOf l ≤ UInt16.ofNat layout.length := by
  have hle : layout.labels[l]?.getD 0 ≤ layout.length := by
    cases hl : layout.labels[l]? with
    | none => exact Nat.zero_le _
    | some n =>
      obtain ⟨x, hx, -, rfl⟩ := (h.label_iff l n).1 hl
      exact (h.laid.offset_le hx).2
  exact ofNat_le_ofNat hle h.lt

theorem Insn.mem_targets_of_normal {L : Type} {i : Insn L} {l : L} (h : l ∈ i.normal.targets) : l ∈ i.targets := by
  cases i with
  | lookupSwitch default pairs => simpa [Insn.normal, Insn.targets] using h
  | _ => exact h

/-- The instruction is the opposite of a conditional jump, which goes over a wide `goto`. -/
def Insn.SkipsGoto (i : Insn Label) (pc : Nat) (r : UInt16 × Insn UInt16) : Prop :=
  ∃ op target inverse, i = .jump op target ∧ Opcode.inverse? op = some inverse ∧
    r = (UInt16.ofNat pc, .jump inverse (UInt16.ofNat (pc + 8)))

theorem target_of_rawInsns {wide : Bool} {i : Insn Label}
    (hr : r ∈ rawInsns layout pc wide i) {t : UInt16} (ht : t ∈ r.2.targets) :
    (∃ l ∈ i.targets, t = layout.posOf l) ∨ wide = true ∧ i.SkipsGoto pc r ∧ t = UInt16.ofNat (pc + 8) := by
  unfold rawInsns at hr
  split at hr
  next op target =>
    split at hr
    next inverse hi =>
      split at hi
      next hw =>
        rcases mem_pair.1 hr with rfl | rfl
        · exact .inr ⟨hw, ⟨op, target, inverse, rfl, hi, rfl⟩, mem_singleton.1 ht⟩
        · exact .inl ⟨target, by simp [Insn.targets], mem_singleton.1 ht⟩
      next => cases hi
    next =>
      obtain rfl := mem_singleton.1 hr
      exact .inl ⟨target, by simp [Insn.targets], mem_singleton.1 ht⟩
  next =>
    obtain rfl := mem_singleton.1 hr
    rw [Insn.targets_map] at ht
    obtain ⟨l, hl, rfl⟩ := mem_map.1 ht
    exact .inl ⟨l, Insn.mem_targets_of_normal hl, rfl⟩

theorem size_of_inverse {n : Nat} {op inverse : Opcode} {target : Label}
    (hi : Opcode.inverse? op = some inverse) (h : (Insn.jump op target).size pc true P = .ok n P) : n = 8 := by
  have hg : (op == Opcode.goto || op == Opcode.jsr) = false := by
    have hall : ∀ op : Opcode, (Opcode.inverse? op).isSome = true → (op == Opcode.goto || op == Opcode.jsr) = false :=
      Opcode.forall_of_lt (by decide +kernel)
    exact hall op (by rw [hi]; rfl)
  rw [Insn.size, hg] at h
  exact (EStateM.Result.ok.inj h).1.symm

theorem Layout.exists_of_mem_raw (hr : r ∈ layout.raw) :
    ∃ i wide pc, ⟨.insn i, wide, pc⟩ ∈ layout.items ∧ r ∈ rawInsns layout pc wide i := by
  obtain ⟨⟨item, wide, offset⟩, hx, hr⟩ := mem_flatMap.1 hr
  cases item with
  | insn i => exact ⟨i, wide, offset, hx, hr⟩
  | label | frame => exact absurd hr not_mem_nil

theorem Layout.Fits.raw_targets (h : layout.Fits P items) {B : UInt16 → Prop} (hb : ∀ l, B (layout.posOf l))
    (he : ∀ x ∈ layout.items, ∀ n, x.HasSize P n → B (UInt16.ofNat (x.offset + n))) :
    ∀ r ∈ layout.raw, ∀ t ∈ r.2.targets, B t := by
  intro r hr t ht
  obtain ⟨i, wide, pc, hx, hr⟩ := exists_of_mem_raw hr
  rcases target_of_rawInsns hr ht with ⟨l, -, rfl⟩ | ⟨rfl, ⟨op, target, inverse, rfl, hinv, -⟩, rfl⟩
  · exact hb l
  · obtain ⟨n, hn, -⟩ := h.laid.offset_add_le hx
    obtain rfl := size_of_inverse hinv hn
    exact he _ hx _ hn

theorem Layout.Fits.raw_targets_le (h : layout.Fits P items) :
    ∀ r ∈ layout.raw, ∀ t ∈ r.2.targets, t ≤ UInt16.ofNat layout.length := by
  refine h.raw_targets h.posOf_le fun x hx n hn => ?_
  obtain ⟨k, hk, hle⟩ := h.laid.offset_add_le hx
  exact ofNat_le_ofNat (hn.unique hk ▸ hle) h.lt

theorem putsIn_emitInsns (items : List Item) (hlow : layout.Low) (hs : layout.Settled)
    (hl : ∀ x ∈ layout.items, x.item.loads = true) :
    PutsIn true layout.emit fun P V code => layout.Fits P items →
      code.length = layout.length ∧ DecodesInsns V 0 code layout.raw := by
  refine (PutsIn.mapM fun x hx => putsIn_placedEmit hlow hs hx (hl x hx)).map fun P V parts hp hf => ?_
  have hlen := hf.laid.length_eq (hp.imp fun _ _ h => h.1)
  exact ⟨by rwa [Nat.zero_add] at hlen, hf.laid.decodes hf.lt hp⟩

theorem Layout.Fits.decodeInsns_eq (h : layout.Fits P items)
    {code : Bytes} (hlen : code.length = layout.length) (hd : DecodesInsns V 0 code layout.raw) :
    decodeInsns V code = .ok layout.raw := by
  rw [decodeInsns, hlen]
  exact decodeInsnsFrom_eq hd h.raw_targets_le _ (le_of_eq hlen) []

/-- **The instructions of a layout are read back from the bytes of the code.** -/
theorem putsIn_emitAll (items : List Item) (hlow : layout.Low) (hs : layout.Settled)
    (hl : ∀ x ∈ layout.items, x.item.loads = true) :
    PutsIn true layout.emit fun P V code => layout.Fits P items →
      code.length = layout.length ∧ decodeInsns V code = .ok layout.raw := by
  refine (putsIn_emitInsns items hlow hs hl).mono fun P V code h hf => ?_
  obtain ⟨hlen, hd⟩ := h hf
  exact ⟨hlen, hf.decodeInsns_eq hlen hd⟩

end ClassDoc
