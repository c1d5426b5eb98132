/-
  Which operands are read after which opcode.
-/
import ClassDoc.Proofs.Binary.Decode
import ClassDoc.Code.Decode
import ClassDoc.Code.Emit
namespace ClassDoc

open List

theorem Opcode.forall_of_lt {p : Opcode → Prop} (h : ∀ n < 256, p (UInt8.ofNat n)) (op : Opcode) : p op := by
  have := h op.toNat op.toNat_lt
  rwa [UInt8.ofNat_toNat] at this

def operandChecks (op : Opcode) : List Bool := [(simpleEffect op).isSome, op == Opcode.bipush, op == Opcode.sipush,
  op == Opcode.newarray, op == Opcode.ldc, op == Opcode.ldcW || op == Opcode.ldc2W, Opcode.isVariable op,
  Opcode.within op Opcode.iload0 Opcode.aload3, Opcode.within op Opcode.istore0 Opcode.astore3, op == Opcode.iinc,
  Opcode.isJump op, op == Opcode.gotoW, op == Opcode.jsrW, op == Opcode.tableswitch, op == Opcode.lookupswitch,
  Opcode.isField op, Opcode.isMethod op, op == Opcode.invokedynamic, Opcode.isType op]

theorem operandChecks_count : ∀ op : Opcode, (operandChecks op).count true ≤ 1 :=
  Opcode.forall_of_lt (by decide +kernel)

theorem take_eq_replicate {bs : List Bool} (hc : bs.count true ≤ 1) {k : Nat} (hk : bs[k]? = some true) :
    bs.take k = List.replicate k false := by
  induction bs generalizing k with
  | nil => exact nomatch hk
  | cons b bs ih =>
    cases k with
    | zero => rfl
    | succ k =>
      have hpos : 0 < bs.count true := count_pos_iff.2 (mem_of_getElem? hk)
      rw [count_cons] at hc
      have hb : b = false := by
        cases b with
        | false => rfl
        | true =>
          simp only [beq_self_eq_true, if_true] at hc
          omega
      rw [take_succ_cons, replicate_succ, hb, ih (by omega) hk]

theorem operandChecks_take (op : Opcode) (k : Nat) (h : (operandChecks op)[k]? = some true) :
    (operandChecks op).take k = List.replicate k false :=
  take_eq_replicate (operandChecks_count op) h

namespace Insn

variable {V : PoolView} {pc : UInt16} {op : Opcode}

theorem decodeOperands_simple (h : (simpleEffect op).isSome = true) :
    decodeOperands V pc op = pure (.simple op) := by
  rw [decodeOperands, if_pos h]

theorem decodeOperands_var (h : Opcode.isVariable op = true) :
    decodeOperands V pc op = (do return .var op (← Decode.u1).toUInt16) := by
  have hb := operandChecks_take op 6 (congrArg some h)
  simp only [operandChecks, take_succ_cons, replicate_succ, List.cons.injEq] at hb
  simp only [decodeOperands, hb, h]
  rfl

theorem decodeOperands_jump (h : Opcode.isJump op = true) :
    decodeOperands V pc op = (do return .jump op (← decodeShortTarget pc)) := by
  have hb := operandChecks_take op 10 (congrArg some h)
  simp only [operandChecks, take_succ_cons, replicate_succ, List.cons.injEq] at hb
  simp only [decodeOperands, hb, h]
  rfl

theorem decodeOperands_field (h : Opcode.isField op = true) : decodeOperands V pc op = (do
    let member ← decodeIndex V.memberRef
    return .field op member.owner member.name member.descriptor) := by
  have hb := operandChecks_take op 15 (congrArg some h)
  simp only [operandChecks, take_succ_cons, replicate_succ, List.cons.injEq] at hb
  simp only [decodeOperands, hb, h]
  rfl

theorem decodeOperands_method (h : Opcode.isMethod op = true) : decodeOperands V pc op = decodeMethod V op := by
  have hb := operandChecks_take op 16 (congrArg some h)
  simp only [operandChecks, take_succ_cons, replicate_succ, List.cons.injEq] at hb
  simp only [decodeOperands, hb, h]
  rfl

theorem decodeOperands_type (h : Opcode.isType op = true) :
    decodeOperands V pc op = (do return .type op (← decodeIndex V.classRef)) := by
  have hb := operandChecks_take op 18 (congrArg some h)
  simp only [operandChecks, take_succ_cons, replicate_succ, List.cons.injEq] at hb
  simp only [decodeOperands, hb, h]
  rfl

theorem decodeOperands_compact {index : UInt16} (h : hasCompactForm op index = true) :
    decodeOperands V pc (compactOpcode op index) = pure (.var op index) := by
  have hload : ∀ op : Opcode, ∀ k < 4, Opcode.within op Opcode.iload Opcode.aload = true →
      (operandChecks (compactOpcode op (UInt16.ofNat k)))[7]? = some true ∧
      Opcode.iload + (compactOpcode op (UInt16.ofNat k) - Opcode.iload0) / 4 = op ∧
      ((compactOpcode op (UInt16.ofNat k) - Opcode.iload0) % 4).toUInt16 = UInt16.ofNat k :=
    Opcode.forall_of_lt (by decide +kernel)
  have hstore : ∀ op : Opcode, ∀ k < 4, Opcode.within op Opcode.istore Opcode.astore = true →
      (operandChecks (compactOpcode op (UInt16.ofNat k)))[8]? = some true ∧
      Opcode.istore + (compactOpcode op (UInt16.ofNat k) - Opcode.istore0) / 4 = op ∧
      ((compactOpcode op (UInt16.ofNat k) - Opcode.istore0) % 4).toUInt16 = UInt16.ofNat k :=
    Opcode.forall_of_lt (by decide +kernel)
  rw [hasCompactForm, Bool.and_eq_true, Bool.or_eq_true, decide_eq_true_iff] at h
  have hi : index.toNat < 4 := UInt16.lt_iff_toNat_lt.1 h.1
  rw [← @UInt16.ofNat_toNat index]
  generalize index.toNat = k at hi
  rcases h.2 with ho | ho
  · obtain ⟨hc, hop, hk⟩ := hload op k hi ho
    have hb := operandChecks_take _ 7 hc
    have hc : Opcode.within (compactOpcode op (UInt16.ofNat k)) Opcode.iload0 Opcode.aload3 = true := Option.some.inj hc
    simp only [operandChecks, take_succ_cons, replicate_succ, List.cons.injEq] at hb
    simp only [decodeOperands, hb, hc, compactVar, hop, hk]
    rfl
  · obtain ⟨hc, hop, hk⟩ := hstore op k hi ho
    have hb := operandChecks_take _ 8 hc
    have hc : Opcode.within (compactOpcode op (UInt16.ofNat k)) Opcode.istore0 Opcode.astore3 = true :=
      Option.some.inj hc
    simp only [operandChecks, take_succ_cons, replicate_succ, List.cons.injEq] at hb
    simp only [decodeOperands, hb, hc, compactVar, hop, hk]
    rfl

end Insn

/-! ## Targets -/

theorem decodes_shortTarget {pc target : Nat} (hpc : pc < 0x10000) (ht : target < 0x10000)
    (hs : Layout.isShort ((target : Int) - pc) = true) :
    Decodes (decodeShortTarget (UInt16.ofNat pc)) (Bytes.u2 (Int16.ofInt ((target : Int) - pc)).toUInt16)
      (UInt16.ofNat target) := by
  have hd : (Int16.ofInt ((target : Int) - pc)).toInt = (target : Int) - pc := by
    simp only [Layout.isShort, Bool.and_eq_true, decide_eq_true_eq] at hs
    exact Int16.toInt_ofInt_of_le (by omega) (by omega)
  refine (Decodes.inside _ (decodes_i2 _)).bind_nil ?_
  have hn : ((UInt16.ofNat pc).toNat : Int) + (target - pc) = target := by
    rw [UInt16.toNat_ofNat_of_lt' hpc]
    omega
  simp only [hd, hn]
  rw [if_pos (by simp; omega), Int.toNat_natCast]
  exact .pure _

theorem decodes_longTarget {pc target : Nat} (hpc : pc < 0x10000) (ht : target < 0x10000) :
    Decodes (decodeLongTarget (UInt16.ofNat pc)) (Bytes.u4 (Int32.ofInt ((target : Int) - pc)).toUInt32)
      (UInt16.ofNat target) := by
  have hd : (Int32.ofInt ((target : Int) - pc)).toInt = (target : Int) - pc :=
    Int32.toInt_ofInt_of_le (by omega) (by omega)
  refine (Decodes.inside _ (decodes_i4 _)).bind_nil ?_
  have hn : ((UInt16.ofNat pc).toNat : Int) + (target - pc) = target := by
    rw [UInt16.toNat_ofNat_of_lt' hpc]
    omega
  simp only [hd, hn]
  rw [if_neg (by simp; omega), if_pos (by omega), Int.toNat_natCast]
  exact .pure _

end ClassDoc
