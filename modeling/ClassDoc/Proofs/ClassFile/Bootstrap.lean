/-
  The pool of a class file with its bootstrap methods.

  The entries stand in front of the class, the table of bootstrap methods in an attribute behind it.
-/
import ClassDoc.ClassFile.Reader
import ClassDoc.Proofs.Pool.Decode
namespace ClassDoc

/-- The view is read from the bytes of the entries of a pool and from those of its bootstrap methods. -/
structure PoolView.IsRead (V : PoolView) (entries methods : Bytes) : Prop where
  entries : Decodes PoolView.decode entries { V with methods := [] }
  methods : Decodes (Decode.list (decodeBootstrapMethod { V with methods := [] })) methods V.methods

theorem forall₂_of_common {α β γ : Type} {R : α → β → Prop} {S : α → γ → Prop} {T : β → γ → Prop} {as : List α}
    {bs : List β} {cs : List γ} (hb : List.Forall₂ R as bs) (hc : List.Forall₂ S as cs)
    (h : ∀ a b c, R a b → S a c → T b c) : List.Forall₂ T bs cs := by
  induction hb generalizing cs with
  | nil =>
    cases hc
    exact .nil
  | cons hab _ ih =>
    cases hc with
    | cons hac hc => exact .cons (h _ _ _ hab hac) (ih hc)

theorem BootstrapMethod.decodes_encode {V : PoolView} {m : BootstrapMethod} {handle : Handle} {bytes : Bytes}
    (hh : V.methodHandle m.handle = .ok handle) (h : m.encode = .ok bytes) :
    Decodes (decodeBootstrapMethod V) bytes (handle, m.arguments) := by
  obtain ⟨count, hc, h⟩ := bind_eq_ok.1 h
  obtain rfl := Except.ok.inj h
  have harguments : Decodes (Decode.list Decode.u2) (count ++ m.arguments.flatMap Bytes.u2) m.arguments := by
    rw [List.flatMap_def]
    refine .list hc (List.forall₂_map_left_iff.2 ?_)
    exact List.forall₂_same.2 fun n _ => decodes_u2 n
  rw [List.append_assoc]
  exact (decodes_index hh).bind harguments.map

namespace Pool

variable {p : Pool} {methods : List (Handle × List UInt16)}

theorem decodes_encodeMethods {bytes : Bytes} (hp : p.WF)
    (hm : List.Forall₂ (fun m h => h.2 = m.arguments ∧ ∀ V : PoolView, V.Covers false p →
      V.methodHandle m.handle = .ok h.1) p.methods.reverse methods) (h : p.encodeMethods = .ok bytes) :
    Decodes (Decode.list (decodeBootstrapMethod { entries := p.slots.toArray })) bytes methods := by
  obtain ⟨count, hc, h⟩ := bind_eq_ok.1 h
  obtain ⟨parts, hparts, h⟩ := bind_eq_ok.1 h
  obtain rfl := Except.ok.inj h
  have hlength : p.methodCount = methods.length := by
    rw [hp.methodCount, ← List.length_reverse, hm.length_eq]
  refine .list (hlength ▸ hc) ?_
  refine forall₂_of_common (mapM_eq_ok_iff.1 hparts) hm fun m part h hpart hh => ?_
  obtain ⟨handle, arguments⟩ := h
  obtain ⟨rfl, hh⟩ := hh
  exact BootstrapMethod.decodes_encode (hh _ (PoolView.covers_slots p [])) hpart

/-- **What is read from the bytes of a pool has all entries and bootstrap methods of the pool.** -/
theorem WF.exists_isRead {entries table : Bytes} (hp : p.WF) (he : p.encode = .ok entries)
    (ht : p.encodeMethods = .ok table) : ∃ V : PoolView, V.IsRead entries table ∧ V.Covers true p := by
  obtain ⟨methods, hm⟩ := hp.exists_methods
  exact ⟨{ entries := p.slots.toArray, methods }, ⟨PoolView.decodes_encode hp.tables he, decodes_encodeMethods hp hm ht⟩,
    covers_of_methods true hm⟩

end Pool

end ClassDoc
