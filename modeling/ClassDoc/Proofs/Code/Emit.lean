/-
  Instructions are read back from the bytes they are written as.
-/
import ClassDoc.Proofs.Code.Layout
import ClassDoc.Proofs.Code.Operands
import ClassDoc.Proofs.Code.Relabel
namespace ClassDoc

open List

/-- The instruction as it is read back. Calls of `invokeinterface` are calls of an interface, and the keys of switches
are sorted. -/
def Insn.normal {L : Type} : Insn L → Insn L
  | method op owner name descriptor interface =>
    .method op owner name descriptor (interface || op == Opcode.invokeinterface)
  | invokeDynamic name descriptor bootstrap arguments =>
    .invokeDynamic name descriptor bootstrap.normal (Constant.normalAll arguments)
  | ldc constant => .ldc constant.normal
  | lookupSwitch default pairs => .lookupSwitch default (pairs.mergeSort fun a b => a.1 ≤ b.1)
  | i => i

/-! ## Positions -/

namespace Layout

def posOf (layout : Layout) (l : Label) : UInt16 := UInt16.ofNat (layout.labels[l]?.getD 0)

def Low (layout : Layout) : Prop := ∀ (l : Label) n, layout.labels[l]? = some n → n < 0x10000

variable {layout : Layout} {l : Label}

theorem position_eq_ok {n : Nat} (h : layout.position l = .ok n) :
    layout.labels[l]? = some n ∧ layout.posOf l = UInt16.ofNat n := by
  unfold position at h
  split at h
  next n' hn =>
    obtain rfl := Except.ok.inj h
    exact ⟨hn, by simp [Layout.posOf, hn]⟩
  next => exact nomatch h

theorem distance_eq_ok {start : Nat} {d : Int} (h : layout.distance start l = .ok d) :
    ∃ n : Nat, layout.labels[l]? = some n ∧ layout.posOf l = UInt16.ofNat n ∧ d = n - start := by
  obtain ⟨n, hn, h⟩ := bind_eq_ok.1 h
  obtain rfl := Except.ok.inj h
  exact ⟨n, (position_eq_ok hn).1, (position_eq_ok hn).2, rfl⟩

theorem offset_eq_ok {o : UInt16} (h : layout.offset l = .ok o) :
    layout.labels[l]? = some o.toNat ∧ layout.posOf l = o := by
  obtain ⟨n, hn, h⟩ := bind_eq_ok.1 h
  obtain ⟨hl, ha⟩ := position_eq_ok hn
  split at h
  next hlt =>
    obtain rfl := Except.ok.inj h
    exact ⟨by rw [hl, UInt16.toNat_ofNat_of_lt' hlt], ha⟩
  next => exact nomatch h

end Layout

variable {bytes : Bytes} {pc : Nat} {layout : Layout} {V : PoolView}

theorem emitDistance_length {l : Label} (h : emitDistance layout pc l = .ok bytes) : bytes.length = 4 := by
  obtain ⟨d, hd, h⟩ := bind_eq_ok.1 h
  exact Except.ok.inj h ▸ rfl

theorem decodes_emitDistance (hlow : layout.Low) (hpc : pc < 0x10000) {l : Label}
    (h : emitDistance layout pc l = .ok bytes) :
    Decodes (decodeLongTarget (UInt16.ofNat pc)) bytes (layout.posOf l) := by
  obtain ⟨d, hd, h⟩ := bind_eq_ok.1 h
  obtain rfl := Except.ok.inj h
  obtain ⟨n, hn, ha, rfl⟩ := Layout.distance_eq_ok hd
  rw [ha]
  exact decodes_longTarget hpc (hlow l n hn)

/-! ## Instructions one after the other -/

/-- Instructions are read from bytes one after the other, each with its position. -/
inductive DecodesInsns (V : PoolView) : (pc : Nat) → Bytes → List (UInt16 × Insn UInt16) → Prop
  | nil (pc : Nat) : DecodesInsns V pc [] []
  | cons {pc : Nat} {op : Opcode} {bytes rest : Bytes} {i : Insn UInt16} {is : List (UInt16 × Insn UInt16)}
      (first : Decodes (Insn.decodeOperands V (UInt16.ofNat pc) op) bytes i)
      (others : DecodesInsns V (pc + (bytes.length + 1)) rest is) :
      DecodesInsns V pc (op :: bytes ++ rest) ((UInt16.ofNat pc, i) :: is)

theorem DecodesInsns.append {bytes' : Bytes} {is is' : List (UInt16 × Insn UInt16)}
    (h : DecodesInsns V pc bytes is) (h' : DecodesInsns V (pc + bytes.length) bytes' is') :
    DecodesInsns V pc (bytes ++ bytes') (is ++ is') := by
  induction h with
  | nil => exact h'
  | cons first _ ih =>
    rw [append_assoc]
    refine .cons first (ih ?_)
    simpa [Nat.add_assoc, Nat.add_comm, Nat.add_left_comm] using h'

theorem DecodesInsns.single {op : Opcode} {i : Insn UInt16}
    (h : Decodes (Insn.decodeOperands V (UInt16.ofNat pc) op) bytes i) :
    DecodesInsns V pc (op :: bytes) [(UInt16.ofNat pc, i)] :=
  append_nil (op :: bytes) ▸ .cons h (.nil _)

def rawInsns (layout : Layout) (pc : Nat) (wide : Bool) : Insn Label → List (UInt16 × Insn UInt16)
  | .jump op target =>
    match if wide then Opcode.inverse? op else none with
    | some inverse => [(UInt16.ofNat pc, .jump inverse (UInt16.ofNat (pc + 8))),
        (UInt16.ofNat (pc + 3), .jump Opcode.goto (layout.posOf target))]
    | none => [(UInt16.ofNat pc, .jump op (layout.posOf target))]
  | i => [(UInt16.ofNat pc, i.normal.map layout.posOf)]

/-! ## The bytes of an instruction -/

theorem PutsIn.rejected {α : Type} {full : Bool} {Q : Pool → PoolView → α → Prop} (w : WriteProblem) :
    PutsIn full (liftM (rejected w : Except Fault α)) Q :=
  (PutsIn.lift _).mono fun _ _ _ h => nomatch h

section

variable {v : Int32} {count : Bytes} {op : Opcode} {n : Nat} {default : Label}

theorem toInt32_toInt8 (h : (-128 ≤ v && v ≤ 127) = true) : v.toInt8.toInt32 = v := by
  simp only [Bool.and_eq_true, decide_eq_true_eq, Int32.le_iff_toInt_le] at h
  have hlow : (-128 : Int32).toInt = -128 := by decide
  have hhigh : (127 : Int32).toInt = 127 := by decide
  apply Int32.toInt_inj.1
  rw [Int8.toInt_toInt32, Int32.toInt_toInt8, Int.bmod_eq_of_le] <;> omega

theorem toInt32_toInt16 (h : (-32768 ≤ v && v ≤ 32767) = true) : v.toInt16.toInt32 = v := by
  simp only [Bool.and_eq_true, decide_eq_true_eq, Int32.le_iff_toInt_le] at h
  have hlow : (-32768 : Int32).toInt = -32768 := by decide
  have hhigh : (32767 : Int32).toInt = 32767 := by decide
  apply Int32.toInt_inj.1
  rw [Int16.toInt_toInt32, Int32.toInt_toInt16, Int.bmod_eq_of_le] <;> omega

theorem toInt16_toInt8 {v : Int16} (h : (-128 ≤ v && v ≤ 127) = true) : v.toInt8.toInt16 = v := by
  simp only [Bool.and_eq_true, decide_eq_true_eq, Int16.le_iff_toInt_le] at h
  have hlow : (-128 : Int16).toInt = -128 := by decide
  have hhigh : (127 : Int16).toInt = 127 := by decide
  apply Int16.toInt_inj.1
  rw [Int8.toInt_toInt16, Int16.toInt_toInt8, Int.bmod_eq_of_le] <;> omega

theorem toInt32_elementType (h : (4 ≤ v && v ≤ 11) = true) : v.toInt8.toUInt8.toUInt32.toInt32 = v := by
  simp only [Bool.and_eq_true, decide_eq_true_eq, Int32.le_iff_toInt_le] at h
  have hlow : (4 : Int32).toInt = 4 := by decide
  have hhigh : (11 : Int32).toInt = 11 := by decide
  have hall : ∀ k ≤ 11, (Int32.ofNat k).toInt8.toUInt8.toUInt32.toInt32 = Int32.ofNat k := by decide
  have hv : Int32.ofNat v.toInt.toNat = v := by
    apply Int32.toInt_inj.1
    rw [Int32.toInt_ofNat_of_lt] <;> omega
  have hk := hall v.toInt.toNat (by omega)
  rwa [hv] at hk

theorem toUInt16_toUInt8 {n : UInt16} (h : n < 256) : n.toUInt8.toUInt16 = n := by
  apply UInt16.toNat_inj.1
  rw [UInt16.lt_iff_toNat_lt] at h
  simpa using h

variable {V : PoolView} {layout : Layout} {pc : Nat} {bytes : Bytes}

theorem emitInt_length (h : emitInt op v = .ok bytes) : bytes.length = if op == Opcode.sipush then 3 else 2 := by
  unfold emitInt rejected at h
  split_ifs at h with hbipush _ hsipush _ hnewarray
  · cases eq_of_beq hbipush
    cases h
    rfl
  · cases h
    rw [if_pos hsipush]
    rfl
  · cases h
    rw [if_neg hsipush]
    rfl

theorem decodes_emitInt (h : emitInt op v = .ok bytes) : DecodesInsns V pc bytes [(UInt16.ofNat pc, .int op v)] := by
  unfold emitInt at h
  split at h
  next hop =>
    obtain rfl := eq_of_beq hop
    split at h
    next hv =>
      obtain rfl := Except.ok.inj h
      exact .single ((decodes_i1 v.toInt8).map_eq (by rw [toInt32_toInt8 hv]))
    next => exact nomatch h
  next =>
    split at h
    next hop =>
      obtain rfl := eq_of_beq hop
      split at h
      next hv =>
        obtain rfl := Except.ok.inj h
        exact .single ((decodes_i2 v.toInt16).map_eq (by rw [toInt32_toInt16 hv]))
      next => exact nomatch h
    next =>
      split at h
      next hop =>
        obtain rfl := eq_of_beq hop
        split at h
        next hv =>
          obtain rfl := Except.ok.inj h
          exact .single ((decodes_u1 v.toInt8.toUInt8).map_eq (by rw [toInt32_elementType hv]))
        next => exact nomatch h
      next => exact nomatch h

theorem emitVar_length {index : UInt16} (h : emitVar op index = .ok bytes) :
    bytes.length = if hasCompactForm op index then 1 else if index < 256 then 2 else 4 := by
  unfold emitVar at h
  split_ifs at h ⊢ <;> cases h <;> rfl

theorem decodes_emitVar {index : UInt16} (h : emitVar op index = .ok bytes) :
    DecodesInsns V pc bytes [(UInt16.ofNat pc, .var op index)] := by
  unfold emitVar at h
  split at h
  next => exact nomatch h
  next hv =>
    have hv : Opcode.isVariable op = true := by simpa using hv
    split at h
    next hc =>
      obtain rfl := Except.ok.inj h
      refine .single ?_
      rw [Insn.decodeOperands_compact hc]
      exact .pure _
    next hc =>
      split at h
      next hi =>
        obtain rfl := Except.ok.inj h
        refine .single ?_
        rw [Insn.decodeOperands_var hv]
        exact (decodes_u1 index.toUInt8).map_eq (by rw [toUInt16_toUInt8 hi])
      next hi =>
        obtain rfl := Except.ok.inj h
        refine .single ((decodes_u1 op).bind ?_)
        rw [if_pos hv]
        exact (decodes_u2 index).map

theorem emitIinc_length (index : UInt16) (increment : Int16) :
    (emitIinc index increment).length = if fitsIinc index increment then 3 else 6 := by
  unfold emitIinc
  split <;> rfl

theorem decodes_emitIinc (index : UInt16) (increment : Int16) :
    DecodesInsns V pc (emitIinc index increment) [(UInt16.ofNat pc, .iinc index increment)] := by
  unfold emitIinc
  split
  next hf =>
    refine .single ((decodes_u1 index.toUInt8).bind ((decodes_i1 increment.toInt8).map_eq ?_))
    rw [fitsIinc, Bool.and_eq_true, decide_eq_true_iff] at hf
    rw [toUInt16_toUInt8 hf.1, toInt16_toInt8 hf.2]
  next => exact .single ((decodes_u1 Opcode.iinc).bind ((decodes_u2 index).bind (decodes_i2 increment).map))

/-! ## Jumps and switches -/

theorem Opcode.isJump_of_inverse? {inverse : Opcode} (h : Opcode.inverse? op = some inverse) :
    Opcode.isJump inverse = true := by
  have hall : ∀ op : Opcode, (Opcode.inverse? op).all Opcode.isJump = true := Opcode.forall_of_lt (by decide +kernel)
  have hop := hall op
  rwa [h] at hop

theorem decodes_overGoto (hpc : pc + 8 < 0x10000) :
    Decodes (decodeShortTarget (UInt16.ofNat pc)) (Bytes.u2 8) (UInt16.ofNat (pc + 8)) := by
  have he : ((pc + 8 : Nat) : Int) - pc = 8 := by omega
  have h := @decodes_shortTarget pc (pc + 8) (by omega) hpc (by rw [he]; rfl)
  rwa [he] at h

theorem emitJump_length {wide : Bool} {target : Label} (h : emitJump layout pc wide op target = .ok bytes) :
    bytes.length = if !wide then 3 else if op == Opcode.goto || op == Opcode.jsr then 5 else 8 := by
  unfold emitJump at h
  split at h
  next => cases h
  next =>
    split at h
    next hw =>
      obtain ⟨d, -, h⟩ := bind_eq_ok.1 h
      rw [if_pos hw, ← Except.ok.inj h]
      rfl
    next hw =>
      rw [if_neg hw]
      split at h
      next hg =>
        obtain ⟨distance, hd, h⟩ := bind_eq_ok.1 h
        rw [if_pos hg, ← Except.ok.inj h, length_cons, emitDistance_length hd]
      next hg =>
        split at h
        next => cases h
        next =>
          obtain ⟨distance, hd, h⟩ := bind_eq_ok.1 h
          rw [if_neg hg, ← Except.ok.inj h, length_cons, length_append, length_cons, emitDistance_length hd]
          rfl

theorem decodes_emitJump (hlow : layout.Low) {wide : Bool} {target : Label}
    (hs : wide = false → ∃ d, layout.distance pc target = .ok d ∧ Layout.isShort d = true)
    (h : emitJump layout pc wide op target = .ok bytes) :
    pc + bytes.length < 0x10000 → DecodesInsns V pc bytes (rawInsns layout pc wide (.jump op target)) := by
  intro hpc
  unfold emitJump at h
  split at h
  next => exact nomatch h
  next hj =>
    have hj : Opcode.isJump op = true := by simpa using hj
    cases wide with
    | false =>
      obtain ⟨d, hd, hshort⟩ := hs rfl
      obtain ⟨n, hn, ha, rfl⟩ := Layout.distance_eq_ok hd
      simp only [hd, ok_bind, Bool.not_false, if_true] at h
      obtain rfl := Except.ok.inj h
      refine .single ?_
      rw [Insn.decodeOperands_jump hj, ha]
      exact (decodes_shortTarget (by omega) (hlow _ _ hn) hshort).map
    | true =>
      simp only [Bool.not_true, Bool.false_eq_true, if_false] at h
      split at h
      next hg =>
        obtain ⟨distance, hd, h⟩ := bind_eq_ok.1 h
        obtain rfl := Except.ok.inj h
        have hd := decodes_emitDistance hlow (by omega) hd
        rcases Bool.or_eq_true_iff.1 hg with hop | hop
        · obtain rfl := eq_of_beq hop
          exact .single hd.map
        · obtain rfl := eq_of_beq hop
          exact .single hd.map
      next hg =>
        split at h
        next => exact nomatch h
        next inverse hi =>
          obtain ⟨distance, hd, h⟩ := bind_eq_ok.1 h
          obtain rfl := Except.ok.inj h
          simp only [length_cons, length_append, Bytes.u2, length_nil, emitDistance_length hd] at hpc
          have hfirst : Decodes (Insn.decodeOperands V (UInt16.ofNat pc) inverse) (Bytes.u2 8)
              (.jump inverse (UInt16.ofNat (pc + 8))) := by
            rw [Insn.decodeOperands_jump (Opcode.isJump_of_inverse? hi)]
            exact (decodes_overGoto (by omega)).map
          have hsecond : Decodes (Insn.decodeOperands V (UInt16.ofNat (pc + 3)) Opcode.gotoW) distance
              (.jump Opcode.goto (layout.posOf target)) :=
            (decodes_emitDistance hlow (by omega) hd).map
          rw [rawInsns, if_pos rfl, hi]
          exact .cons hfirst (.single hsecond)

theorem length_flatten_of_forall₂ {α : Type} {r : α → Bytes → Prop} {k : Nat} {as : List α} {parts : List Bytes}
    (h : Forall₂ r as parts) (hk : ∀ a b, r a b → b.length = k) : parts.flatten.length = k * as.length := by
  induction h with
  | nil => rfl
  | cons hb _ ih =>
    rw [flatten_cons, length_append, hk _ _ hb, ih, length_cons, Nat.mul_succ, Nat.add_comm]

theorem decodes_padding (hpc : pc < 0x10000) :
    Decodes (Decode.skip (switchPadding (UInt16.ofNat pc).toNat)) (List.replicate (switchPadding pc) 0) () := by
  rw [UInt16.toNat_ofNat_of_lt' hpc]
  have h := decodes_skip (List.replicate (switchPadding pc) 0)
  rwa [length_replicate] at h

theorem emitTable_eq_ok {low high : Int32} {targets : List Label}
    (h : emitTable layout pc low high default targets = .ok bytes) :
    ¬ high < low ∧ high.toInt - low.toInt + 1 = targets.length ∧
      ∃ d ts, emitDistance layout pc default = .ok d ∧
        Forall₂ (fun t b => emitDistance layout pc t = .ok b) targets ts ∧
        bytes = Opcode.tableswitch :: (List.replicate (switchPadding pc) 0 ++ d ++ Bytes.u4 low.toUInt32
          ++ Bytes.u4 high.toUInt32 ++ ts.flatten) := by
  unfold emitTable at h
  split at h
  next => cases h
  next hb =>
    simp only [ne_eq, Bool.or_eq_true, decide_eq_true_eq, not_or, not_not] at hb
    obtain ⟨d, hd, h⟩ := bind_eq_ok.1 h
    obtain ⟨ts, ht, h⟩ := bind_eq_ok.1 h
    exact ⟨hb.1, hb.2, d, ts, hd, mapM_eq_ok_iff.1 ht, (Except.ok.inj h).symm⟩

theorem decodes_emitTable (hlow : layout.Low) {low high : Int32} {targets : List Label}
    (h : emitTable layout pc low high default targets = .ok bytes) :
    pc + bytes.length < 0x10000 → DecodesInsns V pc bytes [(UInt16.ofNat pc,
      (Insn.tableSwitch low high default targets).map layout.posOf)] := by
  intro hpc
  rw [Insn.map_tableSwitch]
  obtain ⟨hlt, hcount, d, ts, hd, ht, rfl⟩ := emitTable_eq_ok h
  have hpc : pc < 0x10000 := by omega
  have hts : Decodes (Decode.times targets.length (decodeLongTarget (UInt16.ofNat pc))) ts.flatten
      (targets.map layout.posOf) := by
    rw [show targets.length = (targets.map layout.posOf).length by simp]
    refine .times (forall₂_map_right_iff.2 (ht.flip.imp fun t b htb => ?_))
    exact decodes_emitDistance hlow hpc htb
  refine .single ?_
  simp only [append_assoc]
  refine (decodes_padding hpc).bind ((decodes_emitDistance hlow hpc hd).bind ?_)
  refine (decodes_i4 low).bind ((decodes_i4 high).bind ?_)
  rw [if_neg (by simpa using hlt), show (high.toInt - low.toInt + 1).toNat = targets.length by omega]
  exact hts.map

theorem decodes_count4 (h : Bytes.count4 n = .ok count) (hn : n < 0x80000000) :
    ∃ v : Int32, Decodes Decode.i4 count v ∧ v.toInt = n := by
  unfold Bytes.count4 at h
  split at h
  next => exact ⟨(UInt32.ofNat n).toInt32, Except.ok.inj h ▸ decodes_i4 _, Int32.toInt_ofNat_of_lt hn⟩
  next => exact nomatch h

theorem count1_length (h : Bytes.count1 n = .ok count) : count.length = 1 := by
  unfold Bytes.count1 at h
  split at h
  next => exact Except.ok.inj h ▸ rfl
  next => exact nomatch h

theorem count4_length (h : Bytes.count4 n = .ok count) : count.length = 4 := by
  unfold Bytes.count4 at h
  split at h
  next => exact Except.ok.inj h ▸ rfl
  next => exact nomatch h

theorem emitPair_eq_ok {pair : Int32 × Label} (h : emitPair layout pc pair = .ok bytes) :
    ∃ distance, emitDistance layout pc pair.2 = .ok distance ∧ bytes = Bytes.u4 pair.1.toUInt32 ++ distance := by
  obtain ⟨distance, hd, h⟩ := bind_eq_ok.1 h
  exact ⟨distance, hd, (Except.ok.inj h).symm⟩

theorem emitLookup_eq_ok {pairs : List (Int32 × Label)} (h : emitLookup layout pc default pairs = .ok bytes) :
    ∃ d count ps, emitDistance layout pc default = .ok d ∧ Bytes.count4 pairs.length = .ok count ∧
      Forall₂ (fun pair b => emitPair layout pc pair = .ok b) (pairs.mergeSort fun a b => a.1 ≤ b.1) ps ∧
      bytes = Opcode.lookupswitch :: (List.replicate (switchPadding pc) 0 ++ d ++ count ++ ps.flatten) ∧
      ps.flatten.length = 8 * pairs.length := by
  unfold emitLookup at h
  simp only at h
  split at h
  next => cases h
  next =>
    obtain ⟨d, hd, h⟩ := bind_eq_ok.1 h
    obtain ⟨count, hc, h⟩ := bind_eq_ok.1 h
    obtain ⟨ps, hp, h⟩ := bind_eq_ok.1 h
    rw [mapM_eq_ok_iff] at hp
    have hl := length_flatten_of_forall₂ (k := 8) hp fun pair b hb => by
      obtain ⟨distance, hd, rfl⟩ := emitPair_eq_ok hb
      simp [emitDistance_length hd, Bytes.u4]
    rw [length_mergeSort] at hc hl
    exact ⟨d, count, ps, hd, hc, hp, (Except.ok.inj h).symm, hl⟩

theorem decodes_emitLookup (hlow : layout.Low) {pairs : List (Int32 × Label)}
    (h : emitLookup layout pc default pairs = .ok bytes) :
    pc + bytes.length < 0x10000 → DecodesInsns V pc bytes [(UInt16.ofNat pc,
      (Insn.lookupSwitch default pairs).normal.map layout.posOf)] := by
  intro hpc
  rw [Insn.normal, Insn.map_lookupSwitch]
  obtain ⟨d, count, ps, hd, hc, hp, rfl, hl⟩ := emitLookup_eq_ok h
  simp only [length_cons, length_append, hl] at hpc
  obtain ⟨v, hv, hvn⟩ := decodes_count4 hc (by omega)
  have hpc : pc < 0x10000 := by omega
  refine .single ?_
  simp only [append_assoc]
  refine (decodes_padding hpc).bind ((decodes_emitDistance hlow hpc hd).bind (hv.bind ?_))
  have hneg : ¬ v < 0 := by
    rw [Int32.lt_iff_toInt_lt, hvn]
    exact Int.not_lt.2 (Int.natCast_nonneg _)
  have hlen : (pairs.mergeSort fun a b => a.1 ≤ b.1).length = pairs.length := length_mergeSort _
  rw [if_neg hneg, hvn, Int.toNat_natCast, ← hlen, ← length_map fun p => (p.1, layout.posOf p.2)]
  refine Decodes.map (.times (forall₂_map_right_iff.2 (hp.flip.imp fun b pair hb => ?_)))
  obtain ⟨distance, hd, rfl⟩ := emitPair_eq_ok hb
  exact (decodes_i4 pair.1).bind (decodes_emitDistance hlow hpc hd).map

end

/-! ## All instructions -/

section
variable {layout : Layout} {pc : Nat} {wide : Bool}

theorem Grows.rejected {α : Type} {Q : Pool → α → Prop} (w : WriteProblem) :
    Grows (liftM (rejected w : Except Fault α)) Q :=
  (Grows.lift _).mono fun _ _ h => nomatch h

/-- **An instruction has as many bytes as the layout says**, in each pool from then on. -/
theorem grows_emit (i : Insn Label) :
    Grows (i.emit layout pc wide) fun P bytes => i.size pc wide P = .ok bytes.length P := by
  cases i with
  | simple op =>
    rw [Insn.emit]
    split
    next => exact .pure fun P => rfl
    next => exact .rejected _
  | int op v => exact (Grows.lift _).mono fun P bytes h => by rw [emitInt_length h]; rfl
  | var op index => exact (Grows.lift _).mono fun P bytes h => by rw [emitVar_length h]; rfl
  | type op name =>
    rw [Insn.emit]
    split
    next => exact (Repeats.classRef name).map fun P index _ => rfl
    next => exact .rejected _
  | field op owner name descriptor =>
    rw [Insn.emit]
    split
    next => exact (Repeats.fieldRef owner name descriptor).map fun P index _ => rfl
    next => exact .rejected _
  | method op owner name descriptor interface =>
    rw [Insn.emit, emitMethod]
    split
    next => exact .rejected _
    next =>
      dsimp only
      refine Grows.bind (Repeats.methodRef owner name descriptor _) fun index => ?_
      split
      next hi =>
        refine (Grows.lift _).bind fun slots => (Grows.lift _).bind fun count => .pure fun P hc _ _ => ?_
        rw [Insn.size, if_pos hi, length_cons, length_append, length_append, count1_length hc]
        rfl
      next hi => exact .pure fun P _ => by rw [Insn.size, if_neg hi]; rfl
  | invokeDynamic name descriptor bootstrap arguments =>
    exact (Repeats.invokeDynamic name descriptor bootstrap arguments).map fun P index _ => rfl
  | jump op target => exact (Grows.lift _).mono fun P bytes h => by rw [emitJump_length h]; rfl
  | ldc c =>
    refine (Repeats.constant c).map fun P index hc => ?_
    rw [Insn.size]
    split
    next => rfl
    next =>
      refine run_bind_eq_ok.2 ⟨index, P, hc, ?_⟩
      split <;> rfl
  | iinc index increment => exact .pure fun P => by rw [emitIinc_length]; rfl
  | tableSwitch low high default targets =>
    refine (Grows.lift _).mono fun P bytes h => ?_
    obtain ⟨-, -, d, ts, hd, ht, rfl⟩ := emitTable_eq_ok h
    have hl := length_flatten_of_forall₂ ht fun _ _ => emitDistance_length
    refine congrArg (EStateM.Result.ok · P) ?_
    simp [Bytes.u4, emitDistance_length hd, hl]
    omega
  | lookupSwitch default pairs =>
    refine (Grows.lift _).mono fun P bytes h => ?_
    obtain ⟨d, count, ps, hd, hc, -, rfl, hl⟩ := emitLookup_eq_ok h
    refine congrArg (EStateM.Result.ok · P) ?_
    simp [emitDistance_length hd, count4_length hc, hl]
    omega
  | multiANewArray descriptor dimensions =>
    rw [Insn.emit]
    split
    next => exact .rejected _
    next => exact (Repeats.classRef descriptor).map fun P index _ => rfl

/-- The bytes are decoded as the instruction. -/
def ReadAsInsn (layout : Layout) (pc : Nat) (wide : Bool) (i : Insn Label) (V : PoolView) (bytes : Bytes) : Prop :=
  pc + bytes.length < 0x10000 → DecodesInsns V pc bytes (rawInsns layout pc wide i)

theorem putsIn_emitLdc (c : Constant) (hl : c.loads (PoolView.maxDepth + 1) = true) :
    PutsIn true (emitLdc c) fun _ => ReadAsInsn layout pc wide (.ldc c) := by
  refine PutsIn.map (puts_constant c hl) fun P V index hc _ => ?_
  split
  next => exact .single (decodes_index hc).map
  next =>
    split
    next hi =>
      refine .single ((decodes_u1 index.toUInt8).bind_nil ?_)
      exact .lift_bind ((toUInt16_toUInt8 hi).symm ▸ hc) (.pure _)
    next => exact .single (decodes_index hc).map

theorem putsIn_emitMethod (op : Opcode) (owner name descriptor : String) (interface : Bool) :
    PutsIn true (emitMethod op owner name descriptor interface) fun _ =>
      ReadAsInsn layout pc wide (.method op owner name descriptor interface) := by
  unfold emitMethod
  split
  next => exact .rejected _
  next hm =>
    have hm : Opcode.isMethod op = true := by simpa using hm
    dsimp only
    refine PutsIn.bind (puts_methodRef owner name descriptor _) fun index => ?_
    cases hi : op == Opcode.invokeinterface with
    | true =>
      obtain rfl := eq_of_beq hi
      refine (PutsIn.lift _).bind fun slots => (PutsIn.lift _).map fun P V count hc _ hr _ => .single ?_
      obtain ⟨hd, -⟩ := count1_eq_ok hc
      rw [Insn.decodeOperands_method hm]
      exact (decodes_index hr).bind (hd.bind (decodes_u1 0).map)
    | false =>
      refine .pure fun P V hr _ => .single ?_
      rw [Insn.decodeOperands_method hm, decodeMethod, hi]
      simp only [hi, append_nil, Insn.normal, Bool.or_false] at hr ⊢
      exact (decodes_index hr).map

/-- **An instruction is read back from its bytes, as long as all of the code can be reached.** -/
theorem putsIn_emit (hlow : layout.Low) (i : Insn Label) (hl : i.loads = true)
    (hs : ∀ op target, i = .jump op target → wide = false →
      ∃ d, layout.distance pc target = .ok d ∧ Layout.isShort d = true) :
    PutsIn true (i.emit layout pc wide) fun _ => ReadAsInsn layout pc wide i := by
  cases i with
  | simple op =>
    rw [Insn.emit]
    split
    next ho =>
      refine .pure fun P V _ => .single ?_
      rw [Insn.decodeOperands_simple ho]
      exact .pure _
    next => exact .rejected _
  | int op v => exact (PutsIn.lift _).mono fun P V bytes h _ => decodes_emitInt h
  | var op index => exact (PutsIn.lift _).mono fun P V bytes h _ => decodes_emitVar h
  | type op name =>
    rw [Insn.emit]
    split
    next ho =>
      refine PutsIn.map (puts_classRef name) fun P V index hn _ => .single ?_
      rw [Insn.decodeOperands_type ho]
      exact (decodes_index hn).map
    next => exact .rejected _
  | field op owner name descriptor =>
    rw [Insn.emit]
    split
    next ho =>
      refine PutsIn.map (puts_fieldRef owner name descriptor) fun P V index hn _ => .single ?_
      rw [Insn.decodeOperands_field ho]
      exact (decodes_index hn).map
    next => exact .rejected _
  | method op owner name descriptor interface => exact putsIn_emitMethod op owner name descriptor interface
  | invokeDynamic name descriptor bootstrap arguments =>
    rw [Insn.loads, Bool.and_eq_true] at hl
    refine PutsIn.map (puts_invokeDynamic name descriptor bootstrap arguments hl.1 hl.2) fun P V index h _ => ?_
    exact .single ((decodes_index h).bind (decodes_u2 0).map)
  | jump op target =>
    exact (PutsIn.lift _).mono fun P V bytes h => decodes_emitJump hlow (hs op target rfl) h
  | ldc c => exact putsIn_emitLdc c hl
  | iinc index increment => exact .pure fun P V _ => decodes_emitIinc index increment
  | tableSwitch low high default targets => exact (PutsIn.lift _).mono fun P V bytes h => decodes_emitTable hlow h
  | lookupSwitch default pairs => exact (PutsIn.lift _).mono fun P V bytes h => decodes_emitLookup hlow h
  | multiANewArray descriptor dimensions =>
    rw [Insn.emit]
    split
    next => exact .rejected _
    next =>
      refine PutsIn.map (puts_classRef descriptor) fun P V index h _ => ?_
      exact .single ((decodes_index h).bind (decodes_u1 dimensions).map)

end

end ClassDoc
