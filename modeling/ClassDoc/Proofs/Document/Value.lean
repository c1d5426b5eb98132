/-
  Values read back from their nodes.
-/
import ClassDoc.Proofs.Document.Attr
import ClassDoc.Proofs.Document.Schema
import ClassDoc.Proofs.Text.JavaText
namespace ClassDoc

open List

mutual

/-- Each handle in the value is of a kind of the class file format. -/
def Operand.handlesOk : Operand → Bool
  | .handle h => Handle.isKind h.kind
  | .dynamic _ _ bootstrap arguments => Handle.isKind bootstrap.kind && Operand.allHandlesOk arguments
  | .array values => Operand.allHandlesOk values
  | _ => true

def Operand.allHandlesOk : List Operand → Bool
  | [] => true
  | v :: rest => v.handlesOk && Operand.allHandlesOk rest

end

theorem Operand.allHandlesOk_iff {values : List Operand} :
    allHandlesOk values = true ↔ ∀ v ∈ values, v.handlesOk = true := by
  induction values with
  | nil => simp [allHandlesOk]
  | cons v values ih => simp [allHandlesOk, ih]

namespace Value

/-! ## Scalars -/

theorem unhex_hex (tag : String) (width : Nat) {n : Nat} (h : n < 16 ^ width) : unhex tag width (hex width n) = .ok n := by
  rw [unhex, hex, Hex.utf8ByteSize_fixed, String.toList_ofList, Hex.toNat?_fixed_of_lt h]
  simp

@[simp] theorem unhex_hex_uint8 (tag : String) (n : UInt8) : unhex tag 2 (hex 2 n.toNat) = .ok n.toNat :=
  unhex_hex tag 2 n.toNat_lt

@[simp] theorem unhex_hex_uint16 (tag : String) (n : UInt16) : unhex tag 4 (hex 4 n.toNat) = .ok n.toNat :=
  unhex_hex tag 4 n.toNat_lt

@[simp] theorem unhex_hex_uint32 (tag : String) (n : UInt32) : unhex tag 8 (hex 8 n.toNat) = .ok n.toNat :=
  unhex_hex tag 8 n.toNat_lt

@[simp] theorem unhex_hex_uint64 (tag : String) (n : UInt64) : unhex tag 16 (hex 16 n.toNat) = .ok n.toNat :=
  unhex_hex tag 16 n.toNat_lt

@[simp] theorem unhexText_hexText (tag : String) (t : JavaText) : unhexText tag (hexText t) = .ok t := by
  have hb : unhexBytes tag (hexText t) = .ok t.encode := by
    rw [unhexBytes, hexText, Hex.utf8ByteSize_ofBytes, Hex.toBytes?_ofBytes]
    simp
  rw [unhexText, hb, ok_bind, JavaText.decode?_encode]

@[simp] theorem unhexString_hexText (tag s : String) : unhexString tag (hexText (.ofString s)) = .ok s := by
  rw [unhexString, unhexText_hexText, ok_bind, JavaText.toString?_ofString]

def isScalar : Operand → Bool
  | .handle _ | .dynamic _ _ _ _ | .array _ => false
  | _ => true

variable {parts : List (Except Fault Operand)} {values : List Operand} {h : Handle} {tag : String} {v : Operand}
  {n : Node} {nodes : List Node}

theorem decode_encode? (h : isScalar v = true) : decode v.tag (encode? v) = .ok v := by
  cases v with
  | none => rfl
  | bool v => cases v <;> rfl
  | handle | dynamic | array => cases h
  | byte | short | int | long =>
    simp only [encode?, Operand.tag, decode, decodeData, unhex_hex_uint8, unhex_hex_uint16, unhex_hex_uint32,
      unhex_hex_uint64, ok_bind, UInt8.ofNat_toNat, UInt16.ofNat_toNat, UInt32.ofNat_toNat, UInt64.ofNat_toNat]
    rfl
  | _ => simp [encode?, Operand.tag, decode, decodeData]

/-! ## Nodes -/

@[simp] theorem kind_scalarNode (v : Operand) : (scalarNode v).kind = nodeKind := rfl

@[simp] theorem kind_node (tag : String) (children : List Node) : (node tag children).kind = nodeKind := rfl

@[simp] theorem kind_toNode (v : Operand) : (toNode v).kind = nodeKind := by
  cases v <;> simp [toNode]

theorem isMetadata_of_kind (h : n.kind = nodeKind) : n.isMetadata = false := by
  simp [Node.isMetadata, Node.isMetadataKind, h, nodeKind]

theorem toNodes_eq_map (values : List Operand) : toNodes values = values.map toNode := by
  induction values with
  | nil => rfl
  | cons v values ih => simp [toNodes, ih]

theorem valuesOf_eq (nodes : List Node) : valuesOf nodes = (nodes.filter fun n => !n.isMetadata).map fromNode := by
  induction nodes with
  | nil => simp [valuesOf]
  | cons n nodes ih => cases hn : n.isMetadata <;> simp [valuesOf, hn, ih]

def bootstrapOf (n : Node) : Except Fault Handle :=
  if n.attr? "type" ≠ some "handle" then malformed "dynamic" "bootstrap method" .notHandle
  else do
    let _ ← checkValues n
    handleOf "dynamic" (valuesOf n.children)

theorem bootstrapsOf_eq (nodes : List Node) :
    bootstrapsOf nodes = (nodes.filter fun n => !n.isMetadata).map bootstrapOf := by
  induction nodes with
  | nil => simp [bootstrapsOf]
  | cons n nodes ih =>
    obtain ⟨kind, attributes, children, text⟩ := n
    rw [bootstrapsOf, ih]
    cases hn : (⟨kind, attributes, children, text⟩ : Node).isMetadata <;> simp [hn, bootstrapOf]

theorem filter_eq_self_of_kind (h : ∀ n ∈ nodes, n.kind = nodeKind) : (nodes.filter fun n => !n.isMetadata) = nodes :=
  filter_eq_self.2 fun n hn => by simp [isMetadata_of_kind (h n hn)]

theorem checkValues_eq_ok (h : ∀ m ∈ n.children, m.kind = nodeKind) : checkValues n = .ok n.children := by
  rw [checkValues, Node.elements_eq_children fun m hm => isMetadata_of_kind (h m hm), mapM_eq_ok_iff, forall₂_same]
  intro m hm
  simp [h m hm]

theorem fromNode_scalarNode (h : isScalar v = true) : fromNode (scalarNode v) = .ok v := by
  have hd : (scalarNode v).attr? "data" = encode? v := by
    cases hv : encode? v <;> simp [scalarNode, hv]
  have hv := decode_encode? h
  rw [scalarNode] at hd ⊢
  rw [fromNode, hd, show typeOf _ = .ok v.tag from rfl, ok_bind, hv]
  cases v <;> first | rfl | cases h

theorem fromNode_textNode (s : String) : fromNode (textNode s) = .ok (.string (.ofString s)) := fromNode_scalarNode rfl

theorem fromNode_node {children : List Node} (hc : ∀ m ∈ children, m.kind = nodeKind) :
    fromNode (node tag children) = match tag with
      | "handle" => do return .handle (← handleOf tag (children.map fromNode))
      | "dynamic" => dynamicOf tag (children.map fromNode) (bootstrapsOf children)
      | "array" => do return .array (← elementsOf (children.map fromNode))
      | _ => decode tag none := by
  have hv := checkValues_eq_ok (n := node tag children) hc
  rw [node] at hv ⊢
  rw [fromNode, hv, valuesOf_eq, filter_eq_self_of_kind hc]
  simp only [typeOf]
  rfl

/-! ## Handles, dynamic constants and arrays -/

theorem kind_toInt32 {kind : UInt8} (h : Handle.isKind kind = true) :
    (1 ≤ kind.toUInt32.toInt32 && kind.toUInt32.toInt32 ≤ 9) = true ∧ kind.toUInt32.toInt32.toUInt32.toUInt8 = kind := by
  have hall : ∀ n < 256, Handle.isKind (UInt8.ofNat n) = true →
      (1 ≤ (UInt8.ofNat n).toUInt32.toInt32 && (UInt8.ofNat n).toUInt32.toInt32 ≤ 9) = true ∧
        (UInt8.ofNat n).toUInt32.toInt32.toUInt32.toUInt8 = UInt8.ofNat n := by decide +kernel
  have := hall kind.toNat kind.toNat_lt
  rw [UInt8.ofNat_toNat] at this
  exact this h

theorem kind_of_mem_handleNodes : ∀ n ∈ handleNodes h, n.kind = nodeKind := by
  simp [handleNodes, textNode]

theorem handleOf_handleNodes (tag : String) (hk : Handle.isKind h.kind = true) :
    handleOf tag ((handleNodes h).map fromNode) = .ok h := by
  obtain ⟨hr, hb⟩ := kind_toInt32 hk
  have h0 : fromNode (scalarNode (.int h.kind.toUInt32.toInt32)) = .ok (.int h.kind.toUInt32.toInt32) :=
    fromNode_scalarNode rfl
  have h1 : fromNode (scalarNode (.classRef h.owner)) = .ok (.classRef h.owner) := fromNode_scalarNode rfl
  have h4 : fromNode (scalarNode (.bool h.interface)) = .ok (.bool h.interface) := fromNode_scalarNode rfl
  simp only [handleNodes, map_cons, map_nil, h0, h1, h4, fromNode_textNode]
  simp only [handleOf, component, length_cons, length_nil, getElem?_cons_zero, getElem?_cons_succ,
    ok_bind, hr, if_true, hb, textPart, JavaText.toString?_ofString]
  rfl

theorem elementsOf_ok (values : List Operand) : elementsOf (values.map .ok) = .ok values :=
  mapM_zipIdx_map_eq_ok (fun _ _ _ => rfl) 0

theorem kind_of_mem_toNodes : ∀ n ∈ toNodes values, n.kind = nodeKind := by
  rw [toNodes_eq_map]
  intro n hn
  obtain ⟨v, -, rfl⟩ := mem_map.1 hn
  exact kind_toNode v

theorem fromNode_handle (hk : Handle.isKind h.kind = true) :
    fromNode (node "handle" (handleNodes h)) = .ok (.handle h) := by
  rw [fromNode_node kind_of_mem_handleNodes]
  simp only [handleOf_handleNodes _ hk]
  rfl

theorem fromNode_array (h : ∀ v ∈ values, fromNode (toNode v) = .ok v) :
    fromNode (node "array" (toNodes values)) = .ok (.array values) := by
  have hm : (toNodes values).map fromNode = values.map .ok := by
    rw [toNodes_eq_map, map_map]
    exact map_congr_left h
  rw [fromNode_node kind_of_mem_toNodes]
  simp only [hm, elementsOf_ok]
  rfl

theorem bootstrapOf_handle (hk : Handle.isKind h.kind = true) : bootstrapOf (node "handle" (handleNodes h)) = .ok h := by
  have hv := checkValues_eq_ok (n := node "handle" (handleNodes h)) kind_of_mem_handleNodes
  rw [bootstrapOf, if_neg (by simp [node]), hv, ok_bind]
  rw [show (node "handle" (handleNodes h)).children = handleNodes h from rfl, valuesOf_eq,
    filter_eq_self_of_kind kind_of_mem_handleNodes, handleOf_handleNodes _ hk]

theorem fromNode_dynamic {name descriptor : String} {bootstrap : Handle} {arguments : List Operand}
    (hk : Handle.isKind bootstrap.kind = true) (h : ∀ v ∈ arguments, fromNode (toNode v) = .ok v) :
    fromNode (toNode (.dynamic name descriptor bootstrap arguments)) =
      .ok (.dynamic name descriptor bootstrap arguments) := by
  rw [toNode, fromNode_node (by simp [textNode])]
  simp only [map_cons, map_nil, fromNode_textNode, fromNode_array h]
  simp [bootstrapsOf_eq, filter_eq_self_of_kind, textNode, bootstrapOf_handle hk, dynamicOf, component, textPart,
    JavaText.toString?_ofString]

mutual

/-- **Every value whose handles are of a known kind reads back from its node.** -/
theorem fromNode_toNode : (v : Operand) → v.handlesOk = true → fromNode (toNode v) = .ok v
  | .handle h, hk => by rw [toNode]; exact fromNode_handle hk
  | .dynamic name descriptor bootstrap arguments, hk => by
    simp only [Operand.handlesOk, Bool.and_eq_true] at hk
    exact fromNode_dynamic hk.1 (fromNode_toNode_all arguments hk.2)
  | .array values, hk => by rw [toNode]; exact fromNode_array (fromNode_toNode_all values hk)
  | .none, _ | .bool _, _ | .byte _, _ | .short _, _ | .char _, _ | .int _, _ | .long _, _ | .float _, _
  | .double _, _ | .string _, _ | .classRef _, _ | .methodType _, _ | .label _, _ => fromNode_scalarNode rfl

theorem fromNode_toNode_all : (values : List Operand) → Operand.allHandlesOk values = true →
    ∀ v ∈ values, fromNode (toNode v) = .ok v
  | [], _ => by simp
  | v :: rest, hk => by
    simp only [Operand.allHandlesOk, Bool.and_eq_true] at hk
    intro w hw
    rcases mem_cons.1 hw with hw | hw
    · rw [hw]; exact fromNode_toNode v hk.1
    · exact fromNode_toNode_all rest hk.2 w hw

end

theorem fromChildren_eq_ok (hn : n.elements = values.map toNode)
    (hk : ∀ v ∈ values, v.handlesOk = true) : fromChildren n = .ok values := by
  have hc : checkValues n = .ok (values.map toNode) := by
    rw [checkValues, hn, mapM_eq_ok_iff, forall₂_same]
    intro m hm
    obtain ⟨v, -, rfl⟩ := mem_map.1 hm
    simp
  rw [fromChildren, hc, ok_bind]
  exact mapM_map_eq_ok fun v hv => fromNode_toNode v (hk v hv)

/-! ## Values that are read -/

theorem isKind_toUInt8 {v : Int32} (h : (1 ≤ v && v ≤ 9) = true) : Handle.isKind v.toUInt32.toUInt8 = true := by
  simp only [Bool.and_eq_true, decide_eq_true_eq, Int32.le_iff_toInt_le] at h
  have h1 : (1 : Int32).toInt = 1 := rfl
  have h9 : (9 : Int32).toInt = 9 := rfl
  rw [h1, h9] at h
  obtain ⟨i, hi⟩ : ∃ i, v.toInt = i := ⟨_, rfl⟩
  rw [← Int32.ofInt_toInt v]
  rw [hi] at h ⊢
  obtain ⟨h, h'⟩ := h
  interval_cases i <;> rfl

theorem ensures_component {index : Nat} {what : String} :
    Ensures (fun v => parts[index]? = some (.ok v)) (component parts index tag what) := by
  rw [component]
  split
  next part hpart => exact fun v hv => hpart.trans (congrArg some hv)
  next => exact .error

theorem ensures_textPart {index : Nat} {what : String} :
    Ensures (fun _ => ∃ v, parts[index]? = some (.ok v)) (textPart tag what (component parts index tag what)) := by
  refine .bind ensures_component fun v hv => ?_
  split
  · split
    · exact .ok ⟨_, hv⟩
    · exact .error
  · exact .error

theorem ensures_handleOf :
    Ensures (fun h => Handle.isKind h.kind = true ∧ ∀ p ∈ parts, ∃ v, p = .ok v) (handleOf tag parts) := by
  rw [handleOf]
  split
  · exact .error
  next hl =>
  refine .bind ensures_component fun v h0 => ?_
  split
  · split
    next hv =>
      refine .pure_bind (.bind ensures_component fun _ h1 => ?_)
      split
      · refine .pure_bind (.bind ensures_textPart fun _ h2 => .bind ensures_textPart fun _ h3 =>
          .bind ensures_component fun _ h4 => ?_)
        split
        · refine .ok ⟨isKind_toUInt8 hv, ?_⟩
          rcases parts with _ | ⟨a, _ | ⟨b, _ | ⟨c, _ | ⟨d, _ | ⟨e, _ | ⟨f, l⟩⟩⟩⟩⟩⟩ <;> simp_all
        · exact .error
      · exact .error
    next => exact .error
  · exact .error

theorem tag_of_decode {data : Option String} (h : decode tag data = .ok v) : v.tag = tag ∧ v.handlesOk = true := by
  cases data with
  | none =>
    rw [decode] at h
    split at h
    next ht =>
      cases h
      exact ⟨(beq_iff_eq.1 ht).symm, rfl⟩
    next => split at h <;> cases h
  | some data =>
    rw [decode] at h
    unfold decodeData at h
    split at h
    all_goals
      first
      | cases h
      | obtain ⟨x, -, hx⟩ := bind_eq_ok.1 h
        cases hx
        exact ⟨rfl, rfl⟩

theorem elementsOf_eq_ok (h : elementsOf parts = .ok values) : parts = values.map .ok := by
  rw [elementsOf, mapM_eq_ok_iff] at h
  have hp : Forall₂ Eq (parts.zipIdx.map Prod.fst) (values.map .ok) := by
    rw [forall₂_map_left_iff, forall₂_map_right_iff]
    exact h.imp fun _ _ => within_eq_ok.1
  rwa [forall₂_eq_eq_eq, zipIdx_map_fst] at hp

theorem ensures_dynamicOf {handles : List (Except Fault Handle)} :
    Ensures (fun v => (∀ p ∈ parts.eraseIdx 2, ∃ v, p = .ok v) ∧ ∃ name descriptor bootstrap arguments,
      v = .dynamic name descriptor bootstrap arguments ∧ handles[2]? = some (.ok bootstrap) ∧
        .ok (.array arguments) ∈ parts) (dynamicOf tag parts handles) := by
  rw [dynamicOf]
  split
  · exact .error
  next hl =>
  refine .bind ensures_textPart fun _ h0 => .bind ensures_textPart fun _ h1 => ?_
  split
  next handle hhandle =>
    refine .bind (fun _ h => h) fun bootstrap hb => .bind ensures_component fun _ h3 => ?_
    subst hb
    split
    · refine .ok ⟨?_, _, _, bootstrap, _, rfl, hhandle, mem_of_getElem? h3⟩
      rcases parts with _ | ⟨a, _ | ⟨b, _ | ⟨c, _ | ⟨d, _ | ⟨e, l⟩⟩⟩⟩⟩ <;> simp_all
    · exact .error
  next => exact .error

open Node (Listed hasChildren)

theorem ensures_checkValues :
    Ensures (fun children => children = n.elements ∧ ∀ m ∈ n.elements, m.kind = nodeKind) (checkValues n) := by
  intro children h
  have hf : Forall₂ (fun m m' => m' = m ∧ m.kind = nodeKind) n.elements children := by
    refine (mapM_eq_ok_iff.1 h).imp fun m m' hm => ?_
    split at hm
    next hk => exact ⟨(Except.ok.inj hm).symm, hk⟩
    next => cases hm
  obtain rfl : children = n.elements := forall₂_eq_eq_eq ▸ (hf.imp fun _ _ h => h.1).flip
  exact ⟨rfl, fun m hm => (forall₂_same.1 hf m hm).2⟩

theorem ensures_typeOf : Ensures (fun tag => n.kind = nodeKind ∧ n.attr? "type" = some tag) (typeOf n) := by
  rw [typeOf]
  split
  · exact .error
  next hk =>
    rw [Node.required]
    split
    next tag ht => exact .ok ⟨not_not.1 hk, ht⟩
    next => exact .error

theorem listed_of_kinds (hk : n.kind = nodeKind) (hc : ∀ m ∈ n.elements, m.kind = nodeKind)
    (h : ∀ m ∈ n.elements, Listed hasChildren m) : Listed hasChildren n :=
  Node.listed_of_fits fun m hm => ⟨by rw [hc m hm, hk]; decide, h m hm⟩

theorem listed_of_values (hk : n.kind = nodeKind) (hc : ∀ m ∈ n.elements, m.kind = nodeKind)
    (hm : ∀ m ∈ n.children, Ensures (fun _ => Listed hasChildren m) (fromNode m))
    (h : ∀ p ∈ valuesOf n.children, ∃ v, p = .ok v) : Listed hasChildren n := by
  refine listed_of_kinds hk hc fun m he => ?_
  obtain ⟨v, hv⟩ := h (fromNode m) (valuesOf_eq n.children ▸ mem_map_of_mem he)
  exact hm m (mem_filter.1 he).1 v hv

mutual

theorem ensures_fromNode : (n : Node) → Ensures (fun v => n.attr? "type" = some v.tag ∧ v.handlesOk = true ∧
    n.kind = nodeKind ∧ Listed hasChildren n) (fromNode n)
  | ⟨kind, attributes, children, text⟩ => by
    have hm := fun m h => (ensures_children children m h).1
    have hl := fun m h v hv => (hm m h v hv).2
    have hv : ∀ v, .ok v ∈ valuesOf children → v.handlesOk = true := by
      intro v h
      obtain ⟨m, he, hf⟩ := mem_map.1 (valuesOf_eq children ▸ h)
      exact (hm m (mem_filter.1 he).1 v hf).1
    rw [fromNode]
    refine .bind ensures_typeOf fun tag ht => ?_
    obtain ⟨hk, ht⟩ := ht
    split
    · refine .bind ensures_checkValues fun _ hc => .bind ensures_handleOf fun handle hh => .ok ⟨ht, hh.1, hk, ?_⟩
      exact listed_of_values hk hc.2 hl hh.2
    · refine .bind ensures_checkValues fun _ hc v hd => ?_
      have hc := hc.2
      obtain ⟨hp, name, descriptor, bootstrap, arguments, rfl, hb, ha⟩ := ensures_dynamicOf v hd
      rw [bootstrapsOf_eq, getElem?_map, Option.map_eq_some_iff] at hb
      obtain ⟨b, hbm, hb⟩ := hb
      have hbl := (ensures_children children b (mem_filter.1 (mem_of_getElem? hbm)).1).2 (hc b (mem_of_getElem? hbm)) _ hb
      refine ⟨ht, by simpa [Operand.handlesOk, hbl.1] using hv _ ha, hk, listed_of_kinds hk hc fun m he => ?_⟩
      obtain ⟨i, hi⟩ := mem_iff_getElem?.1 he
      by_cases h2 : i = 2
      · subst h2
        rw [Node.elements, hbm] at hi
        exact Option.some.inj hi ▸ hbl.2
      · obtain ⟨v, hv⟩ := hp (fromNode m) (mem_eraseIdx_iff_getElem?.2 ⟨i, h2, by simpa [valuesOf_eq] using ⟨m, hi, rfl⟩⟩)
        exact hl m (mem_filter.1 he).1 v hv
    · refine .bind ensures_checkValues fun _ hc => .bind (fun _ h => h) fun values h => ?_
      have hvs := elementsOf_eq_ok h
      refine .ok ⟨ht, Operand.allHandlesOk_iff.2 fun v hvm => hv v (hvs ▸ mem_map_of_mem hvm), hk, ?_⟩
      exact listed_of_values hk hc.2 hl (by simp [hvs])
    · intro v h
      obtain ⟨hd, hh⟩ := tag_of_decode h
      subst hd
      refine ⟨ht, hh, hk, ?_⟩
      have hn : (⟨kind, attributes, children, text⟩ : Node).hasChildren = false := by
        simp_all [hasChildren, Node.compoundTypes, nodeKind]
      constructor <;> simp [hn]

theorem ensures_children : (nodes : List Node) → ∀ m ∈ nodes,
    Ensures (fun v => v.handlesOk = true ∧ Listed hasChildren m) (fromNode m) ∧
      (m.kind = nodeKind → Ensures (fun h => Handle.isKind h.kind = true ∧ Listed hasChildren m) (bootstrapOf m))
  | [], _, h => by cases h
  | ⟨kind, attributes, children, text⟩ :: rest, m, h => by
    rcases mem_cons.1 h with rfl | h
    · refine ⟨fun v hv => ?_, fun hk => ?_⟩
      · obtain ⟨-, hh, -, hl⟩ := ensures_fromNode _ v hv
        exact ⟨hh, hl⟩
      · rw [bootstrapOf]
        split
        · exact .error
        · refine .bind ensures_checkValues fun _ hc handle hh => ?_
          obtain ⟨hi, hp⟩ := ensures_handleOf handle hh
          exact ⟨hi, listed_of_values hk hc.2 (fun m h v hv => ((ensures_children children m h).1 v hv).2) hp⟩
    · exact ensures_children rest m h

end

theorem ensures_fromChildren :
    Ensures (fun _ => ∀ m ∈ n.elements, m.kind = nodeKind ∧ Listed hasChildren m) (fromChildren n) :=
  .bind ensures_checkValues fun _ hc => hc.1 ▸ .mapM_right fun m _ => (ensures_fromNode m).imp fun _ h => h.2.2

theorem handlesOk_of_fromNode (n : Node) (h : fromNode n = .ok v) : n.attr? "type" = some v.tag ∧ v.handlesOk = true :=
  ⟨(ensures_fromNode n v h).1, (ensures_fromNode n v h).2.1⟩

/-- **What reads back.** A value reads back from its node exactly if its handles are of a known kind. Only such values are
read, from any node, and each has the type that the node says. -/
theorem fromNode_toNode_iff : (∀ v, fromNode (toNode v) = .ok v ↔ v.handlesOk = true) ∧
    ∀ n v, fromNode n = .ok v → v.handlesOk = true ∧ n.attr? "type" = some v.tag :=
  ⟨fun v => ⟨fun h => (handlesOk_of_fromNode _ h).2, fromNode_toNode v⟩, fun n _ h => (handlesOk_of_fromNode n h).symm⟩

end Value

end ClassDoc
