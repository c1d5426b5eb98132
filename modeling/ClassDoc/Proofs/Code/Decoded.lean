/-
  The instructions that are read from code.
-/
import ClassDoc.Proofs.Model.Instruction
import ClassDoc.Proofs.Pool.Unfolding
namespace ClassDoc

open List

variable {α β : Type} {insns : List (UInt16 × Insn UInt16)} {pool : PoolView} {insn : Insn UInt16} {pc : UInt16}
  (V : PoolView)

/-! ## Going forward -/

/-- `j` is not before `i` in the same input. -/
def Input.Onward (i j : Input) : Prop :=
  i.position ≤ j.position ∧ (j.rest = [] ∨ j.position + j.rest.length = i.position + i.rest.length)

theorem Input.Onward.refl (i : Input) : i.Onward i := ⟨le_refl _, .inr rfl⟩

theorem Input.Onward.trans {i j k : Input} (h : i.Onward j) (h' : j.Onward k) : i.Onward k := by
  obtain ⟨hp, hr⟩ := h
  obtain ⟨hp', hr'⟩ := h'
  refine ⟨hp.trans hp', ?_⟩
  rcases hr' with hk | hk
  · exact .inl hk
  rcases hr with hj | hj
  · -- nothing was left in between, so nothing is left now
    rw [hj, length_nil, Nat.add_zero] at hk
    exact .inl (length_eq_zero_iff.1 (by omega))
  · exact .inr (hk.trans hj)

/-- Decoding goes onward and gives what satisfies `P`. -/
def Decode.Forward (d : Decode α) (P : α → Prop) : Prop := ∀ i a j, d i = .ok (a, j) → i.Onward j ∧ P a

namespace Decode.Forward

variable {d e : Decode α} {f : α → Decode β} {P : α → Prop} {Q : β → Prop} (s : String)

theorem pure {a : α} (h : P a) : Forward (Pure.pure a) P := by
  rintro i b j hb
  cases hb
  exact ⟨.refl i, h⟩

theorem problem (p : ReadProblem) : Forward (Decode.problem p) P := fun _ _ _ h => nomatch h

theorem lift {x : Except Fault α} (hx : ∀ a, x = .ok a → P a) : Forward (liftM x : Decode α) P := by
  rintro i a j h
  cases x with
  | ok b =>
    cases h
    exact ⟨.refl i, hx a rfl⟩
  | error e => cases h

theorem bind_of (hd : Forward d P) (hf : ∀ a, P a → Forward (f a) Q) : Forward (d >>= f) Q := by
  intro i b k h
  obtain ⟨a, j, ha, hb⟩ := decode_bind_eq_ok.1 h
  obtain ⟨hj, hp⟩ := hd i a j ha
  obtain ⟨hk, hq⟩ := hf a hp j b k hb
  exact ⟨hj.trans hk, hq⟩

theorem bind (hd : Forward d P) (hf : ∀ a, Forward (f a) Q) : Forward (d >>= f) Q := hd.bind_of fun a _ => hf a

theorem map {g : α → β} (hd : Forward d P) (hg : ∀ a, P a → Q (g a)) : Forward (d >>= fun a => Pure.pure (g a)) Q :=
  hd.bind_of fun a hp => pure (hg a hp)

theorem ite {c : Prop} [Decidable c] (hd : c → Forward d P) (he : ¬c → Forward e P) : Forward (if c then d else e) P := by
  split
  next h => exact hd h
  next h => exact he h

theorem inside (p : Place) (h : Forward d P) : Forward (Decode.inside p d) P :=
  fun i a j hj => h i a j (within_eq_ok.1 hj)

theorem timesFrom (h : Forward d P) (count : Nat) (found : List α) :
    Forward (Decode.timesFrom d count found) fun _ => True := by
  induction count generalizing found with
  | zero => exact pure trivial
  | succ count ih =>
    rw [timesFrom_succ]
    exact h.bind fun a => ih (a :: found)

theorem times (h : Forward d P) (count : Nat) : Forward (Decode.times count d) fun _ => True := h.timesFrom count []

theorem skip (size : Nat) : Forward (Decode.skip size) fun _ => True := by
  rintro ⟨rest, n⟩ a j h
  cases h
  refine ⟨⟨Nat.le_add_right _ _, ?_⟩, trivial⟩
  rw [length_drop, drop_eq_nil_iff]
  simp only
  omega

theorem byteOf : Forward (Decode.byteOf s) fun _ => True := by
  rintro ⟨_ | ⟨a, rest⟩, n⟩ b j h
  · cases h
  · cases h
    exact ⟨⟨Nat.le_succ n, .inr (by simp only [length_cons]; omega)⟩, trivial⟩

theorem twoOf : Forward (Decode.twoOf s) fun _ => True := by
  rintro ⟨_ | ⟨a, _ | ⟨b, rest⟩⟩, n⟩ c j h
  · cases h
  · cases h
  · cases h
    exact ⟨⟨Nat.le_add_right n 2, .inr (by simp only [length_cons]; omega)⟩, trivial⟩

theorem fourOf : Forward (Decode.fourOf s) fun _ => True := by
  rintro ⟨_ | ⟨a, _ | ⟨b, _ | ⟨c, _ | ⟨d, rest⟩⟩⟩⟩, n⟩ e j h
  · cases h
  · cases h
  · cases h
  · cases h
  · cases h
    exact ⟨⟨Nat.le_add_right n 4, .inr (by simp only [length_cons]; omega)⟩, trivial⟩

theorem u1 : Forward Decode.u1 fun _ => True := byteOf "u8"

theorem u2 : Forward Decode.u2 fun _ => True := twoOf "u16"

theorem i1 : Forward Decode.i1 fun _ => True := (byteOf "i8").map fun _ => id

theorem i2 : Forward Decode.i2 fun _ => True := (twoOf "i16").map fun _ => id

theorem i4 : Forward Decode.i4 fun _ => True := (fourOf "i32").map fun _ => id

theorem index_of {get : UInt16 → Except Fault α} (h : ∀ i a, get i = .ok a → P a) : Forward (decodeIndex get) P :=
  u2.bind fun i => lift (h i)

theorem index (get : UInt16 → Except Fault α) : Forward (decodeIndex get) fun _ => True := index_of fun _ _ _ => trivial

end Decode.Forward

/-! ## Instructions -/

def Insn.IsDecoded {L : Type} (i : Insn L) : Prop :=
  i.Fits ∧ match i with
    | ldc c => c.depth ≤ PoolView.maxDepth + 1
    | invokeDynamic _ _ _ arguments => Constant.depthAll arguments ≤ PoolView.maxDepth
    | _ => True

namespace Opcode

theorem shape_of_simple : ∀ op : Opcode, (simpleEffect op).isSome = true → shape op = .plain :=
  forall_of_lt (by decide +kernel)

theorem shape_load : ∀ op : Opcode, within op iload0 aload3 = true → shape (iload + (op - iload0) / 4) = .variable :=
  forall_of_lt (by decide +kernel)

theorem shape_store : ∀ op : Opcode, within op istore0 astore3 = true → shape (istore + (op - istore0) / 4) = .variable :=
  forall_of_lt (by decide +kernel)

end Opcode

open Decode.Forward

theorem forward_shortTarget (pc : UInt16) : Decode.Forward (decodeShortTarget pc) fun _ => True :=
  (i2.inside _).bind fun _ => .ite (fun _ => .pure trivial) fun _ => .problem _

theorem forward_longTarget (pc : UInt16) : Decode.Forward (decodeLongTarget pc) fun _ => True :=
  (i4.inside _).bind fun _ => .ite (fun _ => .problem _) fun _ => .ite (fun _ => .pure trivial) fun _ => .problem _

theorem forward_table (pc : UInt16) : Decode.Forward (decodeTable pc) Insn.IsDecoded := by
  refine (skip _).bind fun _ => (forward_longTarget pc).bind fun _ => i4.bind fun _ => i4.bind fun _ => ?_
  exact .ite (fun _ => .problem _) fun _ => ((forward_longTarget pc).times _).map fun _ _ => ⟨mem_singleton.2 rfl, trivial⟩

theorem forward_lookup (pc : UInt16) : Decode.Forward (decodeLookup pc) Insn.IsDecoded := by
  refine (skip _).bind fun _ => (forward_longTarget pc).bind fun _ => i4.bind fun _ => ?_
  refine .ite (fun _ => .problem _) fun _ => .map (.times (P := fun _ => True) ?_ _) fun _ _ =>
    ⟨mem_singleton.2 rfl, trivial⟩
  exact i4.bind fun _ => (forward_longTarget pc).map fun _ => id

theorem forward_constant (index : UInt16) :
    Decode.Forward (liftM (V.constant index) : Decode Constant) fun c => (Insn.ldc c : Insn UInt16).IsDecoded :=
  lift fun _ h => ⟨mem_singleton.2 rfl, (PoolView.unfolds_of_loadable h).2⟩

theorem forward_callSite : Decode.Forward (decodeCallSite V) Insn.IsDecoded := by
  refine (index_of (P := fun x => Constant.depthAll x.2.2.2 ≤ PoolView.maxDepth) fun i x h => ?_).bind_of fun x hx =>
    u2.map fun _ _ => ⟨mem_singleton.2 rfl, hx⟩
  obtain ⟨entry, -, h⟩ := bind_eq_ok.1 h
  cases entry with
  | invokeDynamic method member =>
    obtain ⟨_, -, h⟩ := bind_eq_ok.1 h
    obtain ⟨y, hy, h⟩ := bind_eq_ok.1 h
    cases h
    exact PoolView.depthAll_of_bootstrap (within_eq_ok.1 (within_eq_ok.1 hy))
  | _ => cases h

section
variable {op : Opcode} (hop : ∀ {s : Opcode.Shape}, s ≠ .plain → s.covers op = true → Opcode.shape op = s)
include hop

theorem forward_method (V : PoolView) (h : Opcode.isMethod op = true) :
    Decode.Forward (decodeMethod V op) Insn.IsDecoded := by
  have hs : Opcode.shape op = .method := hop (by decide) h
  refine (index _).bind fun _ => ?_
  split
  · exact u1.bind fun _ => u1.bind fun _ => .pure ⟨mem_singleton.2 hs, trivial⟩
  · exact .pure ⟨mem_singleton.2 hs, trivial⟩

end

theorem forward_wide : Decode.Forward decodeWide Insn.IsDecoded := by
  refine u1.bind fun op => .ite (fun h => u2.map fun _ _ => ⟨mem_singleton.2 ?_, trivial⟩) fun _ => ?_
  · exact (Opcode.shape_eq_iff (s := .variable) (by decide) op).2 h
  · exact .ite (fun _ => u2.bind fun _ => i2.map fun _ _ => ⟨mem_singleton.2 rfl, trivial⟩) fun _ => .problem _

theorem forward_operands (pc : UInt16) (op : Opcode) : Decode.Forward (Insn.decodeOperands V pc op) Insn.IsDecoded := by
  have hop : ∀ {s : Opcode.Shape}, s ≠ .plain → s.covers op = true → Opcode.shape op = s :=
    fun hs hc => (Opcode.shape_eq_iff hs op).2 hc
  have hint : ∀ {s : Opcode.Shape}, s ≠ .plain → s.covers op = true → s ∈ [.byte, .short, .elementType] →
      ∀ v, (Insn.int op v : Insn UInt16).IsDecoded := fun hs hc hm v => ⟨Opcode.shape_mem hs hc hm, trivial⟩
  unfold Insn.decodeOperands
  refine .ite (fun h => .pure ⟨mem_singleton.2 (Opcode.shape_of_simple op h), trivial⟩) fun _ => ?_
  refine .ite (fun h => i1.map fun _ _ => hint (s := .byte) (by decide) h (by decide) _) fun _ => ?_
  refine .ite (fun h => i2.map fun _ _ => hint (s := .short) (by decide) h (by decide) _) fun _ => ?_
  refine .ite (fun h => u1.map fun _ _ => hint (s := .elementType) (by decide) h (by decide) _) fun _ => ?_
  refine .ite (fun _ => u1.bind fun _ => (forward_constant V _).map fun _ => id) fun _ => ?_
  refine .ite (fun _ => (u2.bind fun i => forward_constant V i).map fun _ => id) fun _ => ?_
  refine .ite (fun h => u1.map fun _ _ => ⟨mem_singleton.2 (hop (s := .variable) (by decide) h), trivial⟩) fun _ => ?_
  refine .ite (fun h => .pure ⟨mem_singleton.2 (Opcode.shape_load op h), trivial⟩) fun _ => ?_
  refine .ite (fun h => .pure ⟨mem_singleton.2 (Opcode.shape_store op h), trivial⟩) fun _ => ?_
  refine .ite (fun _ => u1.bind fun _ => i1.map fun _ _ => ⟨mem_singleton.2 rfl, trivial⟩) fun _ => ?_
  refine .ite (fun h => (forward_shortTarget pc).map fun _ _ =>
    ⟨mem_singleton.2 (hop (s := .jump) (by decide) h), trivial⟩) fun _ => ?_
  refine .ite (fun _ => (forward_longTarget pc).map fun _ _ => ⟨mem_singleton.2 rfl, trivial⟩) fun _ => ?_
  refine .ite (fun _ => (forward_longTarget pc).map fun _ _ => ⟨mem_singleton.2 rfl, trivial⟩) fun _ => ?_
  refine .ite (fun _ => forward_table pc) fun _ => .ite (fun _ => forward_lookup pc) fun _ => ?_
  refine .ite (fun h => (index _).map fun _ _ => ⟨mem_singleton.2 (hop (s := .field) (by decide) h), trivial⟩) fun _ => ?_
  refine .ite (fun h => forward_method hop V h) fun _ => .ite (fun _ => forward_callSite V) fun _ => ?_
  refine .ite (fun h => (index _).map fun _ _ => ⟨mem_singleton.2 (hop (s := .type) (by decide) h), trivial⟩) fun _ => ?_
  refine .ite (fun _ => forward_wide) fun _ => ?_
  exact .ite (fun _ => (index _).bind fun _ => u1.map fun _ _ => ⟨mem_singleton.2 rfl, trivial⟩) fun _ => .problem _

theorem onward_insn {i j : Input}
    (h : Insn.decode pool pc i = .ok (insn, j)) : i.Onward j ∧ i.position < j.position ∧ insn.IsDecoded := by
  obtain ⟨op, k, hop, h⟩ := decode_bind_eq_ok.1 h
  obtain ⟨hk, hf⟩ := forward_operands pool pc op k insn j h
  refine ⟨(u1 i op k hop).1.trans hk, ?_, hf⟩
  obtain ⟨_ | ⟨a, rest⟩, n⟩ := i
  · cases hop
  · cases hop
    exact hk.1

/-! ## All instructions -/

/-- The instructions stand in order between `start` and `length`. -/
structure Ascending (start length : Nat) (insns : List (UInt16 × Insn UInt16)) : Prop where
  pairwise : (insns.map Prod.fst).Pairwise (· < ·)
  ge : ∀ i ∈ insns, start ≤ i.1.toNat
  lt : ∀ i ∈ insns, i.1.toNat < length
  decoded : ∀ i ∈ insns, i.2.IsDecoded

theorem Ascending.nil (start length : Nat) : Ascending start length [] := ⟨.nil, by simp, by simp, by simp⟩

theorem Ascending.cons {start next length : Nat}
    (hpc : pc.toNat = start) (hl : start < length) (hn : start < next) (ht : insn.IsDecoded)
    (h : Ascending next length insns) : Ascending start length ((pc, insn) :: insns) := by
  refine ⟨?_, ?_, ?_, ?_⟩
  · refine .cons (fun o ho => ?_) h.pairwise
    obtain ⟨x, hx, rfl⟩ := mem_map.1 ho
    rw [UInt16.lt_iff_toNat_lt, hpc]
    exact hn.trans_le (h.ge x hx)
  · rintro x (_ | ⟨_, hx⟩)
    · exact hpc.ge
    · exact hn.le.trans (h.ge x hx)
  · rintro x (_ | ⟨_, hx⟩)
    · exact hpc.trans_lt hl
    · exact h.lt x hx
  · rintro x (_ | ⟨_, hx⟩)
    · exact ht
    · exact h.decoded x hx

theorem ascending_of_decodeInsnsFrom {length : UInt16} {fuel : Nat} {found : List (UInt16 × Insn UInt16)} {i : Input}
    (hl : i.rest = [] ∨ i.position + i.rest.length = length.toNat)
    (h : decodeInsnsFrom pool length fuel found i = .ok insns) :
    ∃ new, insns = found.reverse ++ new ∧ Ascending i.position length.toNat new := by
  induction fuel generalizing found i with
  | zero =>
    cases h
    exact ⟨[], by simp, .nil _ _⟩
  | succ fuel ih =>
    rw [decodeInsnsFrom] at h
    split at h
    · cases h
      exact ⟨[], by simp, .nil _ _⟩
    next hne =>
      dsimp only at h
      split at h
      · cases h
      next insn j hj =>
        obtain ⟨ho, hlt, ht⟩ := onward_insn (within_eq_ok.1 hj)
        split at h
        · cases h
        · -- something is left, so the position is that of a byte of the code
          have hrest : 0 < i.rest.length := length_pos_iff.2 fun hr => hne (by simp [hr])
          have hpos : i.position + i.rest.length = length.toNat := hl.resolve_left (length_pos_iff.1 hrest)
          have hlen := length.toNat_lt
          have hpc : (UInt16.ofNat i.position).toNat = i.position := by
            rw [UInt16.toNat_ofNat', Nat.mod_eq_of_lt (by omega)]
          obtain ⟨new, rfl, ha⟩ := ih (ho.2.imp_right fun e => e.trans hpos) h
          exact ⟨(UInt16.ofNat i.position, insn) :: new, by simp, .cons hpc (by omega) hlt ht ha⟩

/-- **The instructions of code start one behind the other inside of it.** -/
theorem ascending_of_decodeInsns {code : Bytes}
    (hl : code.length < 0x10000) (h : decodeInsns pool code = .ok insns) : Ascending 0 code.length insns := by
  have hlen : (UInt16.ofNat code.length).toNat = code.length := by rw [UInt16.toNat_ofNat', Nat.mod_eq_of_lt hl]
  obtain ⟨new, rfl, ha⟩ := ascending_of_decodeInsnsFrom (.inr (by simp [hlen])) h
  rwa [hlen] at ha

end ClassDoc
