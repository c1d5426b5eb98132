/-
  Module descriptions read back from their nodes.
-/
import ClassDoc.Document.Module
import ClassDoc.Proofs.Document.Attr
import ClassDoc.Proofs.Model.Names
namespace ClassDoc.ModuleInfo

open Node (Reads)

/-! ## Parts -/

variable {p : ModulePackage} {m : ModuleInfo}

@[simp] theorem kind_packageNode (kind : String) (p : ModulePackage) : (packageNode kind p).kind = kind := rfl

@[simp] theorem kind_provideNode (p : ModuleProvide) : (provideNode p).kind = "provides" := rfl

theorem packageOf_packageNode {kind : String} (h : Name.hasSegments p.package = true) :
    packageOf (packageNode kind p) = .ok p := by
  have hc : (packageNode kind p).elements = p.targets.map fun module => .leaf "to" [("module", module)] :=
    Node.elements_eq_children (by simp [packageNode, Node.isMetadata, Node.isMetadataKind])
  rw [packageOf, hc, mapM_map_eq_ok (by simp)]
  simp [packageNode, h]

theorem provideOf_provideNode {p : ModuleProvide} (h : ∀ n ∈ p.service :: p.implementations, Name.hasSegments n = true) :
    provideOf (provideNode p) = .ok p := by
  have hc : (provideNode p).elements = p.implementations.map fun name => .leaf "with" [Attr.ofClass "class" name] :=
    Node.elements_eq_children (by simp [provideNode, Node.isMetadata, Node.isMetadataKind])
  obtain ⟨hs, hi⟩ := List.forall_mem_cons.1 h
  rw [provideOf, hc, mapM_map_eq_ok fun name hm => by simp [hi name hm]]
  simp [provideNode, hs]

/-! ## The module description -/

def toParts (m : ModuleInfo) : List Part :=
  m.requires.map Part.require ++ m.exports.map Part.exported ++ m.opens.map Part.opened ++ m.uses.map Part.use
    ++ m.provides.map Part.provide ++ m.packages.map Part.package ++ m.mainClass.toList.map Part.mainClass

theorem ofParts_toParts (m : ModuleInfo) : ofParts m.name m.access m.version m.toParts = m := by
  cases m
  simp [ofParts, toParts, Part.mainClass?, List.filterMap_append, List.filterMap_map, Function.comp_def]

theorem parts_toNode (h : ∀ n ∈ m.pathNames, Name.hasSegments n = true) :
    m.toNode.parts (readPart m.toNode) = .ok m.toParts := by
  have hm : ∀ child ∈ m.toNode.children, child.isMetadata = false := by
    simp only [toNode, List.mem_append, List.mem_map]
    rintro child ((((((⟨_, -, rfl⟩ | ⟨_, -, rfl⟩) | ⟨_, -, rfl⟩) | ⟨_, -, rfl⟩) | ⟨_, -, rfl⟩) | ⟨_, -, rfl⟩) | ⟨_, -, rfl⟩)
      <;> rfl
  simp only [pathNames, List.forall_mem_append, List.forall_mem_map, List.forall_mem_flatMap, Option.mem_toList] at h
  obtain ⟨⟨⟨⟨⟨hexp, hopen⟩, huse⟩, hprov⟩, hpack⟩, hmain⟩ := h
  apply Node.parts_eq_ok
  rw [Node.elements_eq_children hm]
  refine .append (.append (.append (.append (.append (.append ?_ ?_) ?_) ?_) ?_) ?_) ?_
  · exact .map fun r _ found => by simp [readPart, requireNode]
  · exact .map fun p hp found => by simp [readPart, packageOf_packageNode (hexp p hp)]
  · exact .map fun p hp found => by simp [readPart, packageOf_packageNode (hopen p hp)]
  · exact .map fun name hn found => by simp [readPart, huse name hn]
  · exact .map fun p hp found => by simp [readPart, provideOf_provideNode (hprov p hp)]
  · exact .map fun name hn found => by simp [readPart, hpack name hn]
  · exact .toList fun name hn => by simp [readPart, hmain name hn, Part.mainClass?, ensure]

/-- **A module description reads back from its node.** -/
theorem ofNode_toNode (h : ∀ n ∈ m.pathNames, Name.hasSegments n = true) : ofNode m.toNode = .ok m := by
  rw [ofNode, parts_toNode h]
  simp [toNode, ofParts_toParts]

end ClassDoc.ModuleInfo
