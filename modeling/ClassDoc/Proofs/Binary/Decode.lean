/-
  Decoding undoes encoding, whatever comes behind.
-/
import ClassDoc.Proofs.Fault
import ClassDoc.Attribute.Decode
namespace ClassDoc

open List

/-- The computation takes exactly these bytes off any input that starts with them, and has this result. -/
def Decodes {α : Type} (d : Decode α) (bytes : Bytes) (a : α) : Prop :=
  ∀ rest n, d ⟨bytes ++ rest, n⟩ = .ok (a, ⟨rest, n + bytes.length⟩)

variable {α β : Type} {d : Decode α} {bytes bytes' : Bytes} {a : α} {b : β}

/-! ## Computations one after the other -/

theorem Decode.bind_apply (d : Decode α) (f : α → Decode β) (s : Input) : (d >>= f) s = d s >>= fun p => f p.1 p.2 :=
  rfl

theorem decode_bind_eq_ok {f : α → Decode β} {i k : Input} :
    (d >>= f) i = .ok (b, k) ↔ ∃ a j, d i = .ok (a, j) ∧ f a j = .ok (b, k) := by
  rw [Decode.bind_apply, bind_eq_ok]
  exact ⟨fun ⟨p, h⟩ => ⟨p.1, p.2, h⟩, fun ⟨a, j, h⟩ => ⟨(a, j), h⟩⟩

theorem timesFrom_succ (d : Decode α) (count : Nat) (found : List α) :
    Decode.timesFrom d (count + 1) found = d >>= fun a => Decode.timesFrom d count (a :: found) := by
  funext i
  rw [Decode.bind_apply]
  simp only [Decode.timesFrom]
  cases d i <;> rfl

namespace Decodes

theorem pure (a : α) : Decodes (Pure.pure a) [] a := fun _ _ => rfl

variable {f : α → Decode β} {x : Except Fault α}

theorem bind (h : Decodes d bytes a) (h' : Decodes (f a) bytes' b) : Decodes (d >>= f) (bytes ++ bytes') b := by
  intro rest n
  rw [append_assoc, Decode.bind_apply, h, ok_bind, h', length_append, Nat.add_assoc]

theorem bind_nil (h : Decodes d bytes a) (h' : Decodes (f a) [] b) : Decodes (d >>= f) bytes b :=
  append_nil bytes ▸ h.bind h'

theorem map {f : α → β} (h : Decodes d bytes a) : Decodes (d >>= fun x => Pure.pure (f x)) bytes (f a) :=
  h.bind_nil (pure _)

theorem map_eq {f : α → β} (h : Decodes d bytes a) (hb : f a = b) :
    Decodes (d >>= fun x => Pure.pure (f x)) bytes b :=
  hb ▸ h.map

theorem lift (h : x = .ok a) : Decodes (liftM x) [] a := by
  subst h
  exact fun _ _ => rfl

theorem lift_bind (h : x = .ok a) (h' : Decodes (f a) bytes b) : Decodes (liftM x >>= f) bytes b :=
  (lift h).bind h'

theorem inside (p : Place) (h : Decodes d bytes a) : Decodes (Decode.inside p d) bytes a := by
  intro rest n
  rw [Decode.inside, h, within_ok]

theorem forM {f : α → Decode PUnit} {as : List α} (h : ∀ a ∈ as, Decodes (f a) [] ()) : Decodes (as.forM f) [] () := by
  induction as with
  | nil => exact pure ()
  | cons a as ih => exact (h a (by simp)).bind (ih fun a' ha' => h a' (by simp [ha']))

theorem bytesLeft {f : Nat → Decode α} (h : ∀ fuel, bytes.length ≤ fuel → Decodes (f fuel) bytes a) :
    Decodes (ClassDoc.bytesLeft >>= f) bytes a := by
  intro rest n
  exact h (bytes ++ rest).length (by simp) rest n

end Decodes

/-! ## Numbers -/

variable (s : String)

theorem decodes_byteOf (n : UInt8) : Decodes (Decode.byteOf s) (Bytes.u1 n) n := fun _ _ => rfl

theorem decodes_twoOf (n : UInt16) : Decodes (Decode.twoOf s) (Bytes.u2 n) n := by
  have h : (n >>> 8).toUInt8.toUInt16 <<< 8 ||| n.toUInt8.toUInt16 = n := by
    apply UInt16.eq_of_toBitVec_eq
    ext i hi
    simp [-UInt16.toUInt16_toUInt8]
    grind
  intro rest k
  simp only [Bytes.u2, cons_append, nil_append, Decode.twoOf, h, length_cons, length_nil]

theorem decodes_fourOf (n : UInt32) : Decodes (Decode.fourOf s) (Bytes.u4 n) n := by
  have h : (n >>> 24).toUInt8.toUInt32 <<< 24 ||| (n >>> 16).toUInt8.toUInt32 <<< 16
      ||| (n >>> 8).toUInt8.toUInt32 <<< 8 ||| n.toUInt8.toUInt32 = n := by
    apply UInt32.eq_of_toBitVec_eq
    ext i hi
    simp [-UInt32.toUInt32_toUInt8]
    grind
  intro rest k
  simp only [Bytes.u4, cons_append, nil_append, Decode.fourOf, h, length_cons, length_nil]

theorem decodes_eightOf (n : UInt64) : Decodes (Decode.eightOf s) (Bytes.u8 n) n := by
  have h : (n >>> 32).toUInt32.toUInt64 <<< 32 ||| n.toUInt32.toUInt64 = n := by
    apply UInt64.eq_of_toBitVec_eq
    ext i hi
    simp [-UInt64.toUInt64_toUInt32]
    grind
  have hd : Decodes (Decode.eightOf s) (Bytes.u8 n) ((n >>> 32).toUInt32.toUInt64 <<< 32 ||| n.toUInt32.toUInt64) :=
    (decodes_fourOf s (n >>> 32).toUInt32).bind (decodes_fourOf s n.toUInt32).map
  rwa [h] at hd

theorem decodes_u1 (n : UInt8) : Decodes Decode.u1 (Bytes.u1 n) n := decodes_byteOf _ n

theorem decodes_u2 (n : UInt16) : Decodes Decode.u2 (Bytes.u2 n) n := decodes_twoOf _ n

theorem decodes_u4 (n : UInt32) : Decodes Decode.u4 (Bytes.u4 n) n := decodes_fourOf _ n

theorem decodes_i1 (n : Int8) : Decodes Decode.i1 (Bytes.u1 n.toUInt8) n := (decodes_byteOf _ n.toUInt8).map

theorem decodes_i2 (n : Int16) : Decodes Decode.i2 (Bytes.u2 n.toUInt16) n := (decodes_twoOf _ n.toUInt16).map

theorem decodes_i4 (n : Int32) : Decodes Decode.i4 (Bytes.u4 n.toUInt32) n := (decodes_fourOf _ n.toUInt32).map

theorem decodes_i8 (n : Int64) : Decodes Decode.i8 (Bytes.u8 n.toUInt64) n := (decodes_eightOf _ n.toUInt64).map

theorem decodes_index {get : UInt16 → Except Fault α} {i : UInt16} (h : get i = .ok a) :
    Decodes (decodeIndex get) (Bytes.u2 i) a :=
  (decodes_u2 i).bind_nil (.lift h)

/-! ## Lengths -/

variable {parts : List Bytes} {as : List α} {n : Nat} {count : Bytes}

theorem count1_eq_ok (h : Bytes.count1 n = .ok bytes) :
    Decodes Decode.u1 bytes (UInt8.ofNat n) ∧ (UInt8.ofNat n).toNat = n := by
  unfold Bytes.count1 at h
  split at h
  next hn =>
    obtain rfl := Except.ok.inj h
    exact ⟨decodes_u1 _, UInt8.toNat_ofNat_of_lt' hn⟩
  next => exact nomatch h

theorem count2_eq_ok (h : Bytes.count2 n = .ok bytes) :
    Decodes Decode.u2 bytes (UInt16.ofNat n) ∧ (UInt16.ofNat n).toNat = n := by
  unfold Bytes.count2 at h
  split at h
  next hn =>
    obtain rfl := Except.ok.inj h
    exact ⟨decodes_u2 _, UInt16.toNat_ofNat_of_lt' hn⟩
  next => exact nomatch h

theorem count4_eq_ok (h : Bytes.count4 n = .ok bytes) :
    Decodes Decode.u4 bytes (UInt32.ofNat n) ∧ (UInt32.ofNat n).toNat = n := by
  unfold Bytes.count4 at h
  split at h
  next hn =>
    obtain rfl := Except.ok.inj h
    exact ⟨decodes_u4 _, UInt32.toNat_ofNat_of_lt' hn⟩
  next => exact nomatch h

/-! ## Bytes and lists -/

theorem decodes_bytes (bytes : Bytes) : Decodes (Decode.bytes bytes.length) bytes bytes := by
  intro rest n
  simp [Decode.bytes]

theorem decodes_skip (bytes : Bytes) : Decodes (Decode.skip bytes.length) bytes () := by
  intro rest n
  simp [Decode.skip]

theorem decodes_timesFrom (h : Forall₂ (Decodes d) parts as) :
    ∀ found, Decodes (Decode.timesFrom d as.length found) parts.flatten (found.reverse ++ as) := by
  induction h with
  | nil =>
    intro found rest n
    simp [Decode.timesFrom]
  | @cons p a parts as hp _ ih =>
    intro found rest n
    have := ih (a :: found) rest (n + p.length)
    simp only [length_cons, Decode.timesFrom, flatten_cons, append_assoc, hp _ n, this]
    simp [Nat.add_assoc]

theorem Decodes.times (h : Forall₂ (Decodes d) parts as) : Decodes (Decode.times as.length d) parts.flatten as :=
  decodes_timesFrom h []

theorem Decodes.list (hc : Bytes.count2 as.length = .ok count)
    (h : Forall₂ (Decodes d) parts as) : Decodes (Decode.list d) (count ++ parts.flatten) as := by
  obtain ⟨hd, hn⟩ := count2_eq_ok hc
  exact hd.bind (by rw [hn]; exact .times h)

theorem Decodes.shortList (hc : Bytes.count1 as.length = .ok count) (h : Forall₂ (Decodes d) parts as) :
    Decodes (Decode.shortList d) (count ++ parts.flatten) as := by
  obtain ⟨hd, hn⟩ := count1_eq_ok hc
  exact hd.bind (by rw [hn]; exact .times h)

end ClassDoc
