/-
  Instructions of models and of class files say the same.
-/
import ClassDoc.Proofs.Code.Operands
import ClassDoc.Proofs.Code.Relabel
import ClassDoc.Proofs.Text.JavaText
namespace ClassDoc

open List

/-! ## Constants -/

mutual

def Constant.kindsOk : Constant → Bool
  | methodHandle h => Handle.isKind h.kind
  | dynamic _ _ bootstrap arguments => Handle.isKind bootstrap.kind && Constant.allKindsOk arguments
  | _ => true

def Constant.allKindsOk : List Constant → Bool
  | [] => true
  | c :: rest => c.kindsOk && Constant.allKindsOk rest

end

theorem checkHandle_eq_ok {h h' : Handle} : Operand.checkHandle h = .ok h' ↔ h = h' ∧ Handle.isKind h'.kind = true := by
  unfold Operand.checkHandle
  split
  next hk =>
    simp only [Except.ok.injEq]
    exact ⟨fun e => ⟨e, e ▸ hk⟩, fun e => e.1⟩
  next hk =>
    simp only [reduceCtorEq, false_iff, not_and]
    rintro rfl
    exact hk

namespace Operand

mutual

theorem toConstant_eq_ok : (v : Operand) → (c : Constant) →
    (v.toConstant = .ok c ↔ v = ofConstant c ∧ c.kindsOk = true)
  | .handle h, c => by
    rw [toConstant, bind_eq_ok]
    cases c <;> simp [ofConstant, Constant.kindsOk, checkHandle_eq_ok]
  | .dynamic n d b vs, c => by
    simp only [toConstant, bind_eq_ok, checkHandle_eq_ok]
    cases c with
    | dynamic n' d' b' cs =>
      simp only [ofConstant, Constant.kindsOk, dynamic.injEq, Bool.and_eq_true, pure_eq_ok, Except.ok.injEq,
        Constant.dynamic.injEq]
      constructor
      · rintro ⟨b, ⟨rfl, hk⟩, cs, hcs, rfl, rfl, rfl, rfl⟩
        obtain ⟨rfl, hks⟩ := (toConstants_eq_ok vs cs).1 hcs
        exact ⟨⟨rfl, rfl, rfl, rfl⟩, hk, hks⟩
      · rintro ⟨⟨rfl, rfl, rfl, rfl⟩, hk, hks⟩
        exact ⟨b, ⟨rfl, hk⟩, cs, (toConstants_eq_ok _ cs).2 ⟨rfl, hks⟩, rfl, rfl, rfl, rfl⟩
    | _ => simp [ofConstant]
  | .int _, c | .float _, c | .long _, c | .double _, c | .string _, c | .classRef _, c | .methodType _, c => by
    cases c <;> simp [toConstant, ofConstant, Constant.kindsOk]
  | .none, c | .bool _, c | .byte _, c | .short _, c | .char _, c | .label _, c | .array _, c => by
    cases c <;> simp [toConstant, ofConstant, fail]

theorem toConstants_eq_ok : (vs : List Operand) → (cs : List Constant) →
    (toConstants vs = .ok cs ↔ vs = ofConstants cs ∧ Constant.allKindsOk cs = true)
  | [], cs => by cases cs <;> simp [toConstants, ofConstants, Constant.allKindsOk]
  | v :: vs, cs => by
    simp only [toConstants, bind_eq_ok]
    cases cs with
    | nil => simp [ofConstants]
    | cons c cs =>
      simp only [ofConstants, Constant.allKindsOk, List.cons.injEq, Bool.and_eq_true, pure_eq_ok, Except.ok.injEq]
      constructor
      · rintro ⟨c, hc, cs, hcs, rfl, rfl⟩
        obtain ⟨rfl, hk⟩ := (toConstant_eq_ok v c).1 hc
        obtain ⟨rfl, hks⟩ := (toConstants_eq_ok vs cs).1 hcs
        exact ⟨⟨rfl, rfl⟩, hk, hks⟩
      · rintro ⟨⟨rfl, rfl⟩, hk, hks⟩
        exact ⟨c, (toConstant_eq_ok _ c).2 ⟨rfl, hk⟩, cs, (toConstants_eq_ok _ cs).2 ⟨rfl, hks⟩, rfl, rfl⟩

end

/-! ## Labels -/

mutual

def labels : Operand → List Label
  | label l => [l]
  | array values => labelsOfAll values
  | _ => []

def labelsOfAll : List Operand → List Label
  | [] => []
  | v :: rest => v.labels ++ labelsOfAll rest

end

mutual

def relabel (f : Label → Label) : Operand → Operand
  | label l => label (f l)
  | array values => array (relabelAll f values)
  | v => v

def relabelAll (f : Label → Label) : List Operand → List Operand
  | [] => []
  | v :: rest => v.relabel f :: relabelAll f rest

end

theorem labelsOfAll_eq (values : List Operand) : labelsOfAll values = values.flatMap labels := by
  induction values with
  | nil => rfl
  | cons v values ih => rw [labelsOfAll, ih, flatMap_cons]

theorem relabelAll_eq (f : Label → Label) (values : List Operand) : relabelAll f values = values.map (relabel f) := by
  induction values with
  | nil => rfl
  | cons v values ih => rw [relabelAll, ih, map_cons]

variable {f : Label → Label}

@[simp] theorem labels_ofConstant (c : Constant) : (ofConstant c).labels = [] := by
  cases c <;> simp [ofConstant, labels]

@[simp] theorem relabel_ofConstant (c : Constant) : (ofConstant c).relabel f = ofConstant c := by
  cases c <;> simp [ofConstant, relabel]

theorem ofConstants_eq (cs : List Constant) : ofConstants cs = cs.map ofConstant := by
  induction cs with
  | nil => rfl
  | cons c cs ih => rw [ofConstants, ih, map_cons]

end Operand

/-! ## Instructions -/

/-- The opcode is one of its kind, and the operands are in the ranges that go with it. -/
def Insn.WellFormed {L : Type} : Insn L → Prop
  | simple op => (Opcode.name? op).isSome = true ∧ Opcode.shape op = .plain
  | int op v => (op = Opcode.bipush ∧ -128 ≤ v.toInt ∧ v.toInt ≤ 127)
      ∨ (op = Opcode.sipush ∧ -32768 ≤ v.toInt ∧ v.toInt ≤ 32767) ∨ (op = Opcode.newarray ∧ 4 ≤ v.toInt ∧ v.toInt ≤ 11)
  | var op _ => Opcode.isVariable op = true
  | type op _ => Opcode.isType op = true
  | field op _ _ _ => Opcode.isField op = true
  | method op _ _ _ _ => Opcode.isMethod op = true
  | invokeDynamic _ _ bootstrap arguments => Handle.isKind bootstrap.kind = true ∧ Constant.allKindsOk arguments = true
  | jump op _ => Opcode.isJump op = true
  | ldc constant => constant.kindsOk = true
  | iinc _ _ => True
  | tableSwitch low high _ targets => low ≤ high ∧ Instruction.tableLength low high = targets.length
  | lookupSwitch _ _ => True
  | multiANewArray _ dimensions => dimensions ≠ 0

theorem Insn.wellFormed_map {L M : Type} {f : L → M} {i : Insn L} : (i.map f).WellFormed ↔ i.WellFormed := by
  cases i <;> simp [WellFormed]

namespace Opcode

def Shape.covers (op : Opcode) : Shape → Bool
  | .byte => op == bipush
  | .short => op == sipush
  | .elementType => op == newarray
  | .variable => isVariable op
  | .increment => op == iinc
  | .constant => op == ldc
  | .type => isType op
  | .field => isField op
  | .method => isMethod op
  | .callSite => op == invokedynamic
  | .jump => isJump op
  | .table => op == tableswitch
  | .lookup => op == lookupswitch
  | .dimensions => op == multianewarray
  | .plain => false

def Shape.others : List Shape := [.byte, .short, .elementType, .variable, .increment, .constant, .type, .field, .method,
  .callSite, .jump, .table, .lookup, .dimensions]

theorem filter_covers : ∀ op : Opcode, Shape.others.filter (Shape.covers op) = [shape op].filter (· != .plain) :=
  forall_of_lt (by decide +kernel)

theorem shape_eq_iff {s : Shape} (hs : s ≠ .plain) (op : Opcode) : shape op = s ↔ s.covers op = true := by
  have ho : s ∈ Shape.others := by cases s <;> first | exact absurd rfl hs | decide
  have hf : s.covers op = true ↔ s ∈ Shape.others.filter (Shape.covers op) := by simp [ho]
  rw [hf, filter_covers, mem_filter, mem_singleton, eq_comm]
  exact ⟨fun h => ⟨h, by simpa using hs⟩, fun h => h.1⟩

theorem isSome_name? : ∀ op : Opcode, shape op ≠ .plain → (name? op).isSome = true := forall_of_lt (by decide +kernel)

end Opcode

def Insn.shapes {L : Type} : Insn L → List Opcode.Shape
  | simple _ => [.plain]
  | int _ _ => [.byte, .short, .elementType]
  | var _ _ => [.variable]
  | type _ _ => [.type]
  | field _ _ _ _ => [.field]
  | method _ _ _ _ _ => [.method]
  | invokeDynamic _ _ _ _ => [.callSite]
  | jump _ _ => [.jump]
  | ldc _ => [.constant]
  | iinc _ _ => [.increment]
  | tableSwitch _ _ _ _ => [.table]
  | lookupSwitch _ _ => [.lookup]
  | multiANewArray _ _ => [.dimensions]

/-- The opcode goes with the operands. -/
def Insn.Fits {L : Type} (i : Insn L) : Prop := Opcode.shape i.opcode ∈ i.shapes

theorem Insn.fits_map {L M : Type} {f : L → M} {i : Insn L} : (i.map f).Fits ↔ i.Fits := by
  cases i <;> exact Iff.rfl

theorem Opcode.shape_mem {op : Opcode} {s : Shape} (hs : s ≠ .plain) (hc : s.covers op = true) {ss : List Shape}
    (hm : s ∈ ss) : shape op ∈ ss := by
  rwa [(shape_eq_iff hs op).2 hc]

theorem Insn.WellFormed.fits {L : Type} {i : Insn L} (h : i.WellFormed) : i.Fits := by
  cases i with
  | simple op => exact mem_singleton.2 h.2
  | int op v => rcases h with ⟨rfl, -⟩ | ⟨rfl, -⟩ | ⟨rfl, -⟩ <;> simp only [Fits, opcode, shapes] <;> decide
  | var op => exact Opcode.shape_mem (s := .variable) (by decide) h (by simp [shapes])
  | type op => exact Opcode.shape_mem (s := .type) (by decide) h (by simp [shapes])
  | field op => exact Opcode.shape_mem (s := .field) (by decide) h (by simp [shapes])
  | method op => exact Opcode.shape_mem (s := .method) (by decide) h (by simp [shapes])
  | jump op => exact Opcode.shape_mem (s := .jump) (by decide) h (by simp [shapes])
  | tableSwitch | lookupSwitch | invokeDynamic | ldc | iinc | multiANewArray =>
    simp only [Fits, opcode, shapes]
    decide

theorem Insn.WellFormed.isNone_name? {L : Type} {i : Insn L} (h : i.WellFormed) :
    (Opcode.name? i.opcode).isNone = false := by
  cases i with
  | simple op => simpa [Option.isSome_iff_ne_none, opcode] using h.1
  | _ =>
    have hs := h.fits
    simpa using Opcode.isSome_name? _ fun hp => by simp [Fits, shapes, hp] at hs

namespace Instruction

/-! ## Operands -/

variable {i : Instruction} {insn : Insn Label} {v : Operand}

theorem inRange_eq_ok {what : String} {low high : Int} {v : Int32} {n : Int} :
    inRange i what low high v = .ok n ↔ (low ≤ v.toInt ∧ v.toInt ≤ high) ∧ v.toInt = n := by
  unfold inRange
  split
  next h => simp [h]
  next h => simp only [reduceCtorEq, false_iff]; exact fun h' => h h'.1

theorem nameOf_eq_ok {t : JavaText} {s : String} : nameOf t = .ok s ↔ t = .ofString s := by
  unfold nameOf
  constructor
  · intro h
    split at h
    next s' hs =>
      obtain rfl := Except.ok.inj h
      exact (JavaText.ofString_of_toString? hs).symm
    next => cases h
  · rintro rfl
    rw [JavaText.toString?_ofString]

theorem toInt_toInt32 {n : UInt32} (h : n.toNat < 2 ^ 31) : n.toInt32.toInt = n.toNat := by
  have hb : n.toInt32.toInt = n.toBitVec.toInt := rfl
  rw [hb, BitVec.toInt_eq_toNat_of_lt]
  · rfl
  · have hn : n.toBitVec.toNat = n.toNat := rfl
    omega

theorem toInt_index (index : UInt16) : index.toUInt32.toInt32.toInt = index.toNat := by
  have hl := index.toNat_lt
  rw [toInt_toInt32 (by rw [UInt16.toNat_toUInt32]; omega), UInt16.toNat_toUInt32]

theorem toInt_dimensions (n : UInt8) : n.toUInt32.toInt32.toInt = n.toNat := by
  have hl := n.toNat_lt
  rw [toInt_toInt32 (by rw [UInt8.toNat_toUInt32]; omega), UInt8.toNat_toUInt32]

theorem variableOf_eq_ok {v : Int32} {index : UInt16} : variableOf i v = .ok index ↔ v = index.toUInt32.toInt32 := by
  simp only [variableOf, bind_eq_ok, inRange_eq_ok, pure_eq_ok, Except.ok.injEq]
  constructor
  · rintro ⟨n, ⟨⟨h0, h1⟩, rfl⟩, rfl⟩
    apply Int32.toInt_inj.1
    rw [toInt_index, UInt16.toNat_ofNat', Nat.mod_eq_of_lt (by omega), Int.toNat_of_nonneg h0]
  · rintro rfl
    have hl := index.toNat_lt
    refine ⟨_, ⟨?_, rfl⟩, ?_⟩
    · rw [toInt_index]
      omega
    · rw [toInt_index, Int.toNat_natCast, UInt16.ofNat_toNat]

theorem not_shapeFault {expected : String} : shapeFault i expected ≠ .ok insn := by
  simp [shapeFault]

theorem labelOf_eq_ok {l : Label} : labelOf i v = .ok l ↔ v = .label l := by
  cases v <;> simp [labelOf, fail]

theorem labelsOf_eq_ok {ls : List Label} : labelsOf i v = .ok ls ↔ v = .array (ls.map Operand.label) := by
  cases v with
  | array values =>
    simp only [labelsOf, mapM_eq_ok_iff, labelOf_eq_ok, Operand.array.injEq]
    rw [← forall₂_eq_eq_eq, forall₂_map_right_iff]
  | _ => simp [labelsOf, fail]

theorem keyOf_eq_ok {key : Int32} : keyOf v = .ok key ↔ v = .int key := by
  cases v <;> simp [keyOf]

theorem eq_ofInsn_of_toInsn (h : i.toInsn = .ok insn) : i = ofInsn insn ∧ insn.WellFormed := by
  obtain ⟨op, operands⟩ := i
  rw [toInsn] at h
  split at h
  next => cases h
  next hname =>
    -- what is left are the operands that go with each shape
    split at h <;> first
      | exact absurd h not_shapeFault
      | exact absurd h fail_ne_ok
      | (rename_i hs ho
         simp only at hs ho
         subst ho
         first
           | (have hc := (Opcode.shape_eq_iff (by decide) op).1 hs
              simp only [Opcode.Shape.covers, beq_iff_eq] at hc)
           | skip
         simp only [bind_eq_ok, inRange_eq_ok, variableOf_eq_ok, nameOf_eq_ok, checkHandle_eq_ok, Operand.toConstant_eq_ok,
           Operand.toConstants_eq_ok, labelOf_eq_ok, labelsOf_eq_ok, pure_eq_ok, Except.ok.injEq] at h)
    next v =>
      obtain ⟨n, ⟨hr, rfl⟩, rfl⟩ := h
      exact ⟨by rw [ofInsn, Int32.ofInt_toInt]; rfl, .inl ⟨hc, by rwa [Int32.ofInt_toInt]⟩⟩
    next v =>
      obtain ⟨n, ⟨hr, rfl⟩, rfl⟩ := h
      exact ⟨by rw [ofInsn, Int32.ofInt_toInt]; rfl, .inr (.inl ⟨hc, by rwa [Int32.ofInt_toInt]⟩)⟩
    next v =>
      obtain ⟨n, ⟨hr, rfl⟩, rfl⟩ := h
      exact ⟨by rw [ofInsn, Int32.ofInt_toInt]; rfl, .inr (.inr ⟨hc, by rwa [Int32.ofInt_toInt]⟩)⟩
    next v =>
      obtain ⟨index, rfl, rfl⟩ := h
      exact ⟨rfl, hc⟩
    next index increment =>
      obtain ⟨index, rfl, n, ⟨hr, rfl⟩, rfl⟩ := h
      have hi : (Int16.ofInt increment.toInt).toInt32 = increment := by
        rw [Int16.toInt32_ofInt hr.1 hr.2, Int32.ofInt_toInt]
      exact ⟨by rw [ofInsn, operandsOf, hi, hc]; rfl, trivial⟩
    next constant =>
      obtain ⟨c, ⟨rfl, hk⟩, rfl⟩ := h
      exact ⟨by rw [hc]; rfl, hk⟩
    next name =>
      obtain rfl := h
      exact ⟨rfl, hc⟩
    next owner name descriptor =>
      obtain ⟨name, rfl, descriptor, rfl, rfl⟩ := h
      exact ⟨rfl, hc⟩
    next owner name descriptor interface =>
      obtain ⟨name, rfl, descriptor, rfl, rfl⟩ := h
      exact ⟨rfl, hc⟩
    next name descriptor bootstrap arguments =>
      obtain ⟨name, rfl, descriptor, rfl, bootstrap, ⟨rfl, hk⟩, cs, ⟨rfl, hks⟩, rfl⟩ := h
      exact ⟨by rw [hc]; rfl, hk, hks⟩
    next target =>
      obtain ⟨l, rfl, rfl⟩ := h
      exact ⟨rfl, hc⟩
    next low high default targets =>
      obtain ⟨ls, rfl, h⟩ := h
      split at h
      next => cases h
      next hr =>
        simp only [bind_eq_ok, labelOf_eq_ok, Except.ok.injEq] at h
        obtain ⟨l, rfl, rfl⟩ := h
        rw [not_or, not_not, gt_iff_lt, Int32.not_lt] at hr
        exact ⟨by rw [hc]; rfl, hr⟩
    next default keys targets =>
      obtain ⟨ls, rfl, h⟩ := h
      split at h
      next => cases h
      next hl =>
        simp only [bind_eq_ok, labelOf_eq_ok, Except.ok.injEq, mapM_eq_ok_iff, keyOf_eq_ok] at h
        obtain ⟨ks, hks, l, rfl, rfl⟩ := h
        have hk : keys = ks.map Operand.int := by
          rwa [← forall₂_eq_eq_eq, forall₂_map_right_iff]
        have hl : ks.length = ls.length := by rw [← hks.length_eq, not_not.1 hl]
        have h1 : (ks.zip ls).map (fun p => Operand.int p.1) = ((ks.zip ls).map Prod.fst).map Operand.int := by simp
        have h2 : (ks.zip ls).map (fun p => Operand.label p.2) = ((ks.zip ls).map Prod.snd).map Operand.label := by simp
        refine ⟨?_, trivial⟩
        rw [hc, hk, ofInsn, operandsOf, h1, h2, map_fst_zip hl.le, map_snd_zip hl.ge]
        rfl
    next descriptor dimensions =>
      obtain ⟨n, ⟨hr, rfl⟩, h⟩ := h
      split at h
      next => cases h
      next hd =>
        obtain rfl := Except.ok.inj h
        have ht : (UInt8.ofNat dimensions.toInt.toNat).toNat = dimensions.toInt.toNat := by
          rw [UInt8.toNat_ofNat', Nat.mod_eq_of_lt (by omega)]
        have hi : (UInt8.ofNat dimensions.toInt.toNat).toUInt32.toInt32 = dimensions := by
          apply Int32.toInt_inj.1
          rw [toInt_dimensions, ht, Int.toNat_of_nonneg hr.1]
        refine ⟨by rw [ofInsn, operandsOf, hi, hc]; rfl, fun h0 => ?_⟩
        have := congrArg UInt8.toNat h0
        rw [ht, UInt8.toNat_zero] at this
        omega
    next =>
      obtain rfl := h
      exact ⟨rfl, by simpa [Option.isSome_iff_ne_none] using hname, hs⟩

/-- **The instructions that have a counterpart in class files are those of well formed ones.** -/
theorem toInsn_eq_ok_iff : i.toInsn = .ok insn ↔ i = ofInsn insn ∧ insn.WellFormed := by
  refine ⟨eq_ofInsn_of_toInsn, ?_⟩
  rintro ⟨rfl, h⟩
  have hn := h.isNone_name?
  have hs : Opcode.shape insn.opcode ∈ insn.shapes := h.fits
  simp only [toInsn, ofInsn, hn, Bool.false_eq_true, if_false]
  cases insn with
  | simple op => simp only [operandsOf, mem_singleton.1 hs]; rfl
  | int op v =>
    have hb : Opcode.shape Opcode.bipush = .byte ∧ Opcode.shape Opcode.sipush = .short ∧
      Opcode.shape Opcode.newarray = .elementType := by decide
    rcases h with ⟨rfl, hr⟩ | ⟨rfl, hr⟩ | ⟨rfl, hr⟩ <;> simp only [operandsOf, Insn.opcode, hb] <;> simp [inRange, hr]
  | var op index =>
    simp only [operandsOf, indexOperand, mem_singleton.1 hs, bind_eq_ok, variableOf_eq_ok]
    exact ⟨index, rfl, rfl⟩
  | type op name => simp only [operandsOf, mem_singleton.1 hs]; rfl
  | field op owner name descriptor | method op owner name descriptor interface =>
    simp only [operandsOf, textOperand, mem_singleton.1 hs, bind_eq_ok, nameOf_eq_ok]
    exact ⟨name, rfl, descriptor, rfl, rfl⟩
  | invokeDynamic name descriptor bootstrap arguments =>
    simp only [operandsOf, textOperand, mem_singleton.1 hs, bind_eq_ok, nameOf_eq_ok, checkHandle_eq_ok,
      Operand.toConstants_eq_ok]
    exact ⟨name, rfl, descriptor, rfl, bootstrap, ⟨rfl, h.1⟩, arguments, ⟨rfl, h.2⟩, rfl⟩
  | jump op target => simp only [operandsOf, mem_singleton.1 hs, labelOf, ok_bind, pure_eq_ok]; rfl
  | ldc constant =>
    simp only [operandsOf, mem_singleton.1 hs, bind_eq_ok, Operand.toConstant_eq_ok]
    exact ⟨constant, ⟨rfl, h⟩, rfl⟩
  | iinc index increment =>
    simp only [operandsOf, indexOperand, mem_singleton.1 hs, bind_eq_ok, variableOf_eq_ok, inRange_eq_ok,
      Int16.toInt_toInt32]
    have hr := And.intro increment.minValue_le_toInt increment.toInt_le
    exact ⟨index, rfl, _, ⟨hr, rfl⟩, by rw [Int16.ofInt_toInt]; rfl⟩
  | tableSwitch low high default targets =>
    have hr : ¬ (low > high ∨ tableLength low high ≠ targets.length) := by
      rw [not_or, not_not, gt_iff_lt, Int32.not_lt]
      exact h
    simp only [operandsOf, mem_singleton.1 hs, labelsOf_eq_ok.2 rfl, ok_bind, hr, labelOf, pure_eq_ok]
    rfl
  | lookupSwitch default pairs =>
    have ht : ∀ i, labelsOf i (.array (pairs.map fun p => .label p.2)) = .ok (pairs.map Prod.snd) := fun i =>
      labelsOf_eq_ok.2 (by simp)
    have hk : (pairs.map fun p => Operand.int p.1).mapM keyOf = .ok (pairs.map Prod.fst) :=
      mapM_map_eq_ok_map fun _ _ => rfl
    simp only [operandsOf, mem_singleton.1 hs, ht, ok_bind, length_map, ne_eq, not_true_eq_false, if_false, hk, labelOf,
      pure_eq_ok, zip_map']
    simp
  | multiANewArray descriptor dimensions =>
    have hl := dimensions.toNat_lt
    have hd : (dimensions.toNat : Int) ≠ 0 := fun h0 => h (UInt8.toNat_inj.1 (by simpa using h0))
    simp only [operandsOf, mem_singleton.1 hs, bind_eq_ok, inRange_eq_ok, toInt_dimensions]
    exact ⟨_, ⟨by omega, rfl⟩, by rw [if_neg hd, Int.toNat_natCast, UInt8.ofNat_toNat]; rfl⟩

/-! ## Labels -/

def labels (i : Instruction) : List Label := i.operands.flatMap Operand.labels

def relabel (f : Label → Label) (i : Instruction) : Instruction := ⟨i.opcode, i.operands.map (Operand.relabel f)⟩

theorem labels_ofInsn (insn : Insn Label) : (ofInsn insn).labels = insn.targets := by
  cases insn <;> simp [labels, ofInsn, operandsOf, Insn.targets, Operand.labels, textOperand, indexOperand,
    Operand.labelsOfAll_eq, Operand.ofConstants_eq, flatMap_map, ← map_eq_flatMap]

theorem relabel_ofInsn (f : Label → Label) (insn : Insn Label) : (ofInsn insn).relabel f = ofInsn (insn.map f) := by
  cases insn <;> simp [relabel, ofInsn, operandsOf, Insn.opcode, Operand.relabel, textOperand, indexOperand,
    Operand.relabelAll_eq, Operand.ofConstants_eq]

theorem targets_eq_nil (h : Opcode.shape i.opcode ∉ [.jump, .table, .lookup]) : i.targets = .ok [] := by
  unfold targets
  split <;> simp_all

theorem noTargets_of_fits (h : insn.Fits) (hs : ∀ s ∈ insn.shapes, s ∉ [.jump, .table, .lookup]) :
    Opcode.shape (ofInsn insn).opcode ∉ [.jump, .table, .lookup] := hs _ h

theorem targets_ofInsn (h : insn.Fits) : (ofInsn insn).targets = .ok insn.targets := by
  have hl : ∀ i : Instruction, ∀ ls : List Label, (ls.map Operand.label).mapM (targetOf i) = .ok ls := fun i ls =>
    mapM_map_eq_ok fun l _ => rfl
  cases insn with
  | jump op l =>
    have hj : Opcode.shape op = .jump := mem_singleton.1 h
    simp only [targets, ofInsn, Insn.opcode, operandsOf, hj]
    rfl
  | tableSwitch low high default ts =>
    have hj : Opcode.shape (Insn.tableSwitch low high default ts).opcode = .table := rfl
    simp only [targets, ofInsn, operandsOf, hj, switchTargets, targetOf, targetsOf, hl]
    rfl
  | lookupSwitch default pairs =>
    have hj : Opcode.shape (Insn.lookupSwitch default pairs).opcode = .lookup := rfl
    have hp : pairs.map (fun p => Operand.label p.2) = (pairs.map Prod.snd).map Operand.label := by simp
    simp only [targets, ofInsn, operandsOf, hj, switchTargets, targetOf, targetsOf, hp, hl]
    rfl
  | simple | int | var | type | field | method | invokeDynamic | ldc | iinc | multiANewArray =>
    exact targets_eq_nil (noTargets_of_fits h (by simp [Insn.shapes]))

end Instruction

end ClassDoc
