/-
  The bytes of a pool are read as its entries.
-/
import ClassDoc.Proofs.Pool.Puts
namespace ClassDoc

theorem decodes_pair {α : Type} (f : UInt16 → UInt16 → α) (a b : UInt16) :
    Decodes (decodePair f) (Bytes.u2 a ++ Bytes.u2 b) (f a b) :=
  (decodes_u2 a).bind (decodes_u2 b).map

theorem decodeText_encode (t : JavaText) : decodeText t.encode = .ok t := by
  rw [decodeText, JavaText.decode?_encode]

theorem PoolEntry.decodes_encode {e : PoolEntry} {bytes : Bytes} (h : e.encode = .ok bytes) (index : Nat) :
    Decodes (PoolEntry.decode index) bytes e := by
  obtain ⟨body, hb, h⟩ := bind_eq_ok.1 h
  obtain rfl := Except.ok.inj h
  have step : ∀ {f : UInt8 → Decode PoolEntry}, Decodes (f e.tag) body e →
      Decodes (Decode.u1 >>= f) (e.tag :: body) e := fun hf => (decodes_u1 e.tag).bind hf
  refine step ?_
  cases e with
  | utf8 t =>
    obtain ⟨length, hl, hb⟩ := bind_eq_ok.1 hb
    obtain rfl := Except.ok.inj hb
    obtain ⟨hd, hn⟩ := count2_eq_ok (within_eq_ok.1 hl)
    refine hd.bind ?_
    rw [hn]
    exact (decodes_bytes _).bind_nil (.lift_bind (decodeText_encode t) (.pure _))
  | integer v => exact Except.ok.inj hb ▸ (decodes_i4 v).map
  | float v => exact Except.ok.inj hb ▸ (decodes_u4 v.bits).map
  | long v => exact Except.ok.inj hb ▸ (decodes_i8 v).map
  | double v => exact Except.ok.inj hb ▸ (decodes_i8 v.bits.toInt64).map
  | classRef n | module n | package n | string n | methodType n => exact Except.ok.inj hb ▸ (decodes_u2 n).map
  | fieldRef a b | methodRef a b | interfaceMethodRef a b | nameAndType a b | dynamic a b | invokeDynamic a b =>
    exact Except.ok.inj hb ▸ decodes_pair _ a b
  | methodHandle kind reference =>
    exact Except.ok.inj hb ▸ (decodes_u1 kind).bind (decodes_u2 reference).map

namespace PoolView

theorem push_eq (entries : Array (Option PoolEntry)) (e : PoolEntry) :
    push entries e = entries ++ e.places.toArray := by
  unfold push PoolEntry.places
  apply Array.ext'
  cases e.isWide <;> simp

theorem decodes_decodeEntries {count : Nat} {es : List PoolEntry} {parts : List Bytes}
    (h : List.Forall₂ (fun e b => PoolEntry.encode e = .ok b) es parts) :
    ∀ fuel entries, (es.flatMap PoolEntry.places).length ≤ fuel →
      entries.size + (es.flatMap PoolEntry.places).length = count →
      Decodes (decodeEntries count fuel entries) parts.flatten (entries ++ (es.flatMap PoolEntry.places).toArray) := by
  induction h with
  | nil =>
    intro fuel entries _ hc
    cases fuel with
    | zero => simpa [decodeEntries] using Decodes.pure entries
    | succ fuel =>
      rw [decodeEntries, if_neg (by simp at hc; omega)]
      simpa using Decodes.pure _
  | @cons e b es parts he _ ih =>
    intro fuel entries hf hc
    rw [List.flatMap_cons, List.length_append] at hf hc
    have hp : (push entries e).size = entries.size + e.places.length := by simp [push_eq]
    have hl : 0 < e.places.length := by simp [PoolEntry.places]
    obtain ⟨fuel, rfl⟩ := Nat.exists_eq_succ_of_ne_zero (by omega : fuel ≠ 0)
    intro rest n
    have hs := ih fuel (push entries e) (by omega) (by omega) rest (n + b.length)
    rw [Nat.succ_eq_add_one, decodeEntries, if_pos (by omega)]
    simp only [List.flatten_cons, List.append_assoc, PoolEntry.decodes_encode he _ _ _, hs]
    simp [push_eq, Nat.add_assoc]

/-- **The bytes of a pool are read as its entries by index.** -/
theorem decodes_encode {p : Pool} {bytes : Bytes} (hp : p.Tables) (h : p.encode = .ok bytes) :
    Decodes PoolView.decode bytes { entries := p.slots.toArray } := by
  obtain ⟨parts, hm, h⟩ := bind_eq_ok.1 h
  obtain rfl := Except.ok.inj h
  have hn : (UInt16.ofNat p.count).toNat = p.count := UInt16.toNat_ofNat_of_lt' hp.bound
  have hc : p.count = 1 + (p.entries.reverse.flatMap PoolEntry.places).length := by
    rw [hp.count, Pool.slots, List.length_cons, Nat.add_comm]
  refine (decodes_u2 _).bind ?_
  rw [hn]
  refine Decodes.map (f := fun es => ({ entries := es } : PoolView)) ?_
  have := decodes_decodeEntries (mapM_eq_ok_iff.1 hm) p.count #[none] (by omega) hc.symm
  simpa [Pool.slots] using this

end PoolView

end ClassDoc
