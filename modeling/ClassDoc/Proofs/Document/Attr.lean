/-
  Attributes and children of nodes read back.
-/
import ClassDoc.Document.Attr
import ClassDoc.Proofs.Fault
import ClassDoc.Proofs.Name.Escape
import ClassDoc.Proofs.Text.Decimal
namespace ClassDoc

namespace Attr

/-! ## Finding attributes -/

def lookup (attributes : List (String × String)) (name : String) : Option String :=
  (attributes.find? fun a => a.1 == name).map Prod.snd

@[simp] theorem lookup_nil (name : String) : lookup [] name = none := rfl

@[simp] theorem lookup_cons (key value name : String) (rest : List (String × String)) :
    lookup ((key, value) :: rest) name = if key = name then some value else lookup rest name := by
  by_cases h : key = name <;> simp [lookup, h]

@[simp] theorem lookup_append (xs ys : List (String × String)) (name : String) :
    lookup (xs ++ ys) name = (lookup xs name).or (lookup ys name) := by
  rw [lookup, List.find?_append, Option.map_or]; rfl

@[simp] theorem lookup_optional (key name : String) (value : Option String) :
    lookup (optional key value) name = if key = name then value else none := by
  cases value <;> simp [optional]

@[simp] theorem lookup_mark (key name : String) (set : Bool) :
    lookup (mark key set) name = if key = name ∧ set = true then some "true" else none := by
  cases set <;> simp [mark]

end Attr

@[simp] theorem Node.attr?_eq (kind : String) (attributes : List (String × String)) (children : List Node)
    (text : Option String) (name : String) :
    (⟨kind, attributes, children, text⟩ : Node).attr? name = Attr.lookup attributes name := rfl

/-! ## Typed attributes -/

namespace Attr

attribute [simp] ofNumber ofLabel ofClass ofClass? ofName Node.leaf Node.required
attribute [simp] numberBelow number8 number16 className escaped label
attribute [simp] Name.classFromDocument_classToDocument Name.unescape_escape

variable {node : Node} {name : String}

theorem decimalBelow_repr {limit n : Nat} (h : n < limit) (name : String) :
    decimalBelow limit name n.repr = .ok n := by
  have he : n.repr.isEmpty = false := by
    rw [Bool.eq_false_iff, ne_eq, String.isEmpty_iff, ← String.toList_eq_nil_iff, ← Nat.toString_eq_repr, toList_toString]
    exact Nat.toDigits_ne_nil
  rw [decimalBelow, he, ← Nat.toString_eq_repr, toList_toString, all_isDigit_toDigits, Label.number_toDigits]
  simp [h]

@[simp] theorem decimalBelow_uint8 (n : UInt8) : decimalBelow 0x100 name n.toNat.repr = .ok n.toNat :=
  decimalBelow_repr n.toNat_lt name

@[simp] theorem decimalBelow_uint16 (n : UInt16) : decimalBelow 0x10000 name n.toNat.repr = .ok n.toNat :=
  decimalBelow_repr n.toNat_lt name

@[simp] theorem labelOf_text (l : Label) : Value.labelOf l.text = .ok l := by
  rw [Value.labelOf, Label.parse_text]

theorem number8?_eq_ok (n : Option UInt8) (h : node.attr? name = n.map fun n => n.toNat.repr) :
    number8? node name = .ok n := by
  cases n <;> simp_all [number8?]

theorem flag_eq_ok (set : Bool) (h : node.attr? name = if set then some "true" else none) :
    flag node name = .ok set := by
  cases set <;> simp_all [flag]

theorem className?_eq_ok {c : Option String} (hc : ∀ n ∈ c, Name.hasSegments n = true)
    (h : node.attr? name = c.map Name.classToDocument) : className? node name = .ok c := by
  cases c <;> simp_all [className?]

theorem escaped?_eq_ok {s : Option String} (hs : ∀ n ∈ s, n ≠ "") (h : node.attr? name = s.map Name.escape) :
    escaped? node name = .ok s := by
  cases s <;> simp_all [escaped?]

end Attr

/-! ## Children -/

namespace Node

variable {α β : Type} {read : List α → Node → Except Fault α} {found ps : List α} {f : β → Node} {g : β → α}
  {node : Node}

theorem elements_eq_children (h : ∀ child ∈ node.children, child.isMetadata = false) :
    node.elements = node.children := by
  rw [elements, List.filter_eq_self]
  intro child hc
  simp [h child hc]

/-- The nodes are read as the parts. -/
def Reads (read : List α → Node → Except Fault α) (found : List α) (nodes : List Node) (parts : List α) : Prop :=
  ∀ rest, readParts read found (nodes ++ rest) = readParts read (parts.reverse ++ found) rest

theorem Reads.nil (found : List α) : Reads read found [] [] := fun _ => rfl

theorem Reads.append {xs ys : List Node} {qs : List α} (hx : Reads read found xs ps)
    (hy : Reads read (ps.reverse ++ found) ys qs) : Reads read found (xs ++ ys) (ps ++ qs) := by
  intro rest
  rw [List.append_assoc, hx, hy, List.reverse_append, List.append_assoc]

theorem Reads.cons {x : Node} {xs : List Node} {p : α} (hx : read found x = .ok p)
    (hs : Reads read (p :: found) xs ps) : Reads read found (x :: xs) (p :: ps) := by
  intro rest
  rw [List.cons_append, readParts, hx]
  simpa using hs rest

theorem Reads.map {xs : List β}
    (h : ∀ x ∈ xs, ∀ found, read found (f x) = .ok (g x)) : Reads read found (xs.map f) (xs.map g) := by
  induction xs generalizing found with
  | nil => exact .nil found
  | cons x xs ih => exact .cons (h x (by simp) found) (ih fun y hy => h y (by simp [hy]))

theorem Reads.toList {o : Option β}
    (h : ∀ x ∈ o, read found (f x) = .ok (g x)) : Reads read found (o.toList.map f) (o.toList.map g) := by
  cases o with
  | none => exact .nil found
  | some x => exact .cons (h x rfl) (.nil _)

theorem parts_eq_ok (h : Reads read [] node.elements ps) : node.parts read = .ok ps := by
  have := h []
  simpa [parts, readParts] using this

end Node

end ClassDoc
