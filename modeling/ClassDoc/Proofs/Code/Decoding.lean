/-
  Code that was written is decoded with the pool that was written.
-/
import ClassDoc.Proofs.ClassFile.Bootstrap
import ClassDoc.Proofs.Code.Coverage
import ClassDoc.Proofs.Code.Defined
namespace ClassDoc

open List

/-- **Code is decoded as its instructions, where the layout has placed them and with positions for labels, and there is
nothing else in its bytes.** The pool is read from its bytes, which are written once more entries may have been put. -/
theorem decodeInsns_emit {items : List Item} {layout : Layout} {p q r P : Pool} {code entries table : Bytes}
    (hp : p.WF) (hl : ∀ i, .insn i ∈ items → i.loads = true) (hlayout : Layout.of items p = .ok layout q)
    (hemit : layout.emit q = .ok code r) (hP : P.WF) (hle : r ≤ P) (he : P.encode = .ok entries)
    (ht : P.encodeMethods = .ok table) :
    ∃ V : PoolView, V.IsRead entries table ∧ layout.items.map Placed.item = items ∧
      (∀ i, .insn i ∈ items → ∀ l ∈ i.targets, ∃ n < 0x10000, layout.labels[l]? = some n) ∧
      decodeInsns V code = .ok layout.raw ∧ DecodesInsns V 0 code layout.raw := by
  obtain ⟨V, hread, hV⟩ := hP.exists_isRead he ht
  have hloads : ∀ x ∈ items, x.loads = true := by
    intro x hx
    cases x with
    | insn i => exact hl i hx
    | label | frame => rfl
  have hlaid := putsIn_layout items hloads hp hlayout
  -- that the jumps fit is needed to write the code, so before the last pool is there
  obtain ⟨methods, hm⟩ := hlaid.wf.exists_methods
  have hfirst := hlaid.seen q _ hlaid.wf le_rfl (Pool.covers_of_methods true hm)
  have hwritten := putsIn_emitInsns items hfirst.low hfirst.settled (fun x hx => hloads _ (hfirst.item_mem hx))
    hlaid.wf hemit
  have hfits := hlaid.seen P V hP (hwritten.le.trans hle) hV
  obtain ⟨hlen, hd⟩ := hwritten.seen P V hP hle hV hfits
  refine ⟨V, hread, hfits.items_eq, ?_, hfits.decodeInsns_eq hlen hd, hd⟩
  intro i hi l hlabel
  obtain ⟨x, hx, hitem⟩ := mem_map.1 (hfits.items_eq ▸ hi)
  obtain ⟨n, hn⟩ := Layout.defines_of_emit hemit hx hitem l hlabel
  exact ⟨n, hfits.low l n hn, hn⟩

/-- A conditional jump that is too far for 16 bits, which is decoded as two jumps. -/
theorem decodeInsns_emit_far : ∃ code, (Far.layout 32765 true).emit {} = .ok code {} ∧
    Layout.of ((Far.items 32765 false).map Prod.fst) {} = .ok (Far.layout 32765 true) {} ∧
    ∃ V : PoolView, V.IsRead (Bytes.u2 1) (Bytes.u2 0) ∧
      decodeInsns V code = .ok (Far.layout 32765 true).raw ∧
      [(1, .jump (Opcode.ifeq + 1) 9), (4, .jump Opcode.goto 32774)] <:+: (Far.layout 32765 true).raw := by
  have hlayout := Far.of_items (n := 32765) (by decide) (by decide) {}
  obtain ⟨code, hcode⟩ := Far.exists_emit 32765 {}
  have hloads : ∀ i, .insn i ∈ (Far.items 32765 false).map Prod.fst → i.loads = true := by
    intro i hi
    refine Far.loads_events 32765 i (Body.mem_items_ofEvents.1 ?_)
    rwa [Far.ofEvents_events]
  obtain ⟨V, hread, -, -, hd, -⟩ :=
    decodeInsns_emit Pool.wf_empty hloads hlayout hcode Pool.wf_empty le_rfl rfl rfl
  refine ⟨code, hcode, hlayout, V, hread, hd, ?_⟩
  have hjump : (⟨.insn (.jump Opcode.ifeq Far.target), true, 1⟩ : Placed) ∈ (Far.layout 32765 true).items := by
    simp [Far.layout]
  have hposition : (Far.layout 32765 true).posOf Far.target = 32774 := by
    rw [Layout.posOf, Far.layout, Std.HashMap.getElem?_insert_self]
    rfl
  have hraw : Placed.raw (Far.layout 32765 true) ⟨.insn (.jump Opcode.ifeq Far.target), true, 1⟩ =
      [(1, .jump (Opcode.ifeq + 1) 9), (4, .jump Opcode.goto ((Far.layout 32765 true).posOf Far.target))] :=
    rfl
  rw [← hposition, ← hraw, Layout.raw, flatMap_def]
  exact infix_of_mem_flatten (mem_map_of_mem hjump)

end ClassDoc
