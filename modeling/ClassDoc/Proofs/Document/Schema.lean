/-
  The kinds of nodes that documents have.
-/
import ClassDoc.Document.Attr
import ClassDoc.Proofs.Fault
namespace ClassDoc.Node

def childKinds : String → List String
  | "class" => ["interface", "enclosing-method", "nest-host", "nest-member", "permitted-subclass", "inner-class",
      "annotation", "type-annotation", "record", "module", "field", "method"]
  | "record" => ["component"]
  | "component" => ["annotation", "type-annotation"]
  | "module" => ["requires", "exports", "opens", "uses", "provides", "package", "main-class"]
  | "exports" | "opens" => ["to"]
  | "provides" => ["with"]
  | "field" => ["value", "annotation", "type-annotation"]
  | "method" => ["throws", "parameter", "annotation", "type-annotation", "default", "body", "local-variable"]
  | "parameter" => ["annotation"]
  | "body" => ["label", "instruction", "try-catch", "frame", "line"]
  | "instruction" | "value" => ["value"]
  | "frame" => ["locals", "stack"]
  | "locals" | "stack" => ["top", "integer", "float", "long", "double", "null", "uninitialized-this", "object",
      "uninitialized"]
  | "annotation" => ["property"]
  | "type-annotation" => ["range", "property"]
  | "property" | "default" | "array" => ["value", "enum", "class-ref", "annotation", "array"]
  | _ => []

def compoundTypes : List String := ["handle", "dynamic", "array"]

/-- Whether nodes like this one have children at all. -/
def hasChildren (n : Node) : Bool :=
  !(childKinds n.kind).isEmpty && (n.kind != "value" || compoundTypes.any fun tag => n.attr? "type" == some tag)

/-- All nodes below have a kind that is listed for the node above, apart from those that are only there for people to
read and from what is below a node for which `inside` does not hold. -/
inductive Listed (inside : Node → Bool) : Node → Prop
  | mk {n : Node} (kinds : inside n = true → ∀ child ∈ n.elements, child.kind ∈ childKinds n.kind)
      (below : inside n = true → ∀ child ∈ n.elements, Listed inside child) : Listed inside n

def Fits (n child : Node) : Prop := child.kind ∈ childKinds n.kind ∧ Listed hasChildren child

variable {n child : Node} {α : Type}

theorem listed_of_fits (h : ∀ child ∈ n.elements, n.Fits child) : Listed hasChildren n :=
  ⟨fun _ child hc => (h child hc).1, fun _ child hc => (h child hc).2⟩

theorem listed_of_childKinds_eq_nil (h : childKinds n.kind = []) : Listed hasChildren n := by
  have hn : n.hasChildren = false := by simp [hasChildren, h]
  constructor <;> simp [hn]

theorem fits_leaf (hk : child.kind ∈ childKinds n.kind) (h : childKinds child.kind = []) : n.Fits child :=
  ⟨hk, listed_of_childKinds_eq_nil h⟩

theorem ensures_parts {p : α → Prop} {q : Node → Prop} {read : List α → Node → Except Fault α}
    (h : ∀ found child, Ensures (fun a => p a ∧ q child) (read found child)) :
    Ensures (fun parts => (∀ a ∈ parts, p a) ∧ ∀ child ∈ n.elements, q child) (n.parts read) := by
  have hf : ∀ (nodes : List Node) (found : List α), (∀ a ∈ found, p a) →
      Ensures (fun parts => (∀ a ∈ parts, p a) ∧ ∀ child ∈ nodes, q child) (readParts read found nodes) := by
    intro nodes
    induction nodes with
    | nil => exact fun found hf => .ok (by simpa using hf)
    | cons child nodes ih =>
      intro found hf
      rw [readParts]
      split
      · exact .error
      next part hp =>
        obtain ⟨ha, hq⟩ := h found child part hp
        intro parts hparts
        obtain ⟨h1, h2⟩ := ih (part :: found) (List.forall_mem_cons.2 ⟨ha, hf⟩) parts hparts
        exact ⟨h1, List.forall_mem_cons.2 ⟨hq, h2⟩⟩
  exact hf n.elements [] (by simp)

end ClassDoc.Node
