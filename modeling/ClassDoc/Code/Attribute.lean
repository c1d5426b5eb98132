/-
  The code attribute of a method.
-/
import ClassDoc.Attribute.Annotation
import ClassDoc.Code.Emit
import ClassDoc.Code.FrameTable
namespace ClassDoc.Body

def maxsOf (body : Body) (access : UInt16) (descriptor : String) : Except Fault (UInt16 × UInt16) :=
  match body.maxs with
  | some maxs => .ok maxs
  | none => do
    let stack ← maxStack body.items body.handlers
    let locals ← maxLocals access descriptor body.items body.localVariables
    return (stack, locals)

def encodeTryCatch (layout : Layout) (t : TryCatch) : PoolM Bytes := do
  let start ← layout.offset t.start
  let stop ← layout.offset t.stop
  if start ≥ stop then throw (.write (.emptyRange start.toNat stop.toNat))
  else
    let handler ← layout.offset t.handler
    let catchType ← Pool.optionalClass t.catchType
    return Bytes.u2 start ++ Bytes.u2 stop ++ Bytes.u2 handler ++ Bytes.u2 catchType

def encodeLineNumber (layout : Layout) (line : UInt16 × Label) : PoolM Bytes := do
  return Bytes.u2 (← layout.offset line.2) ++ Bytes.u2 line.1

def encodeVariable (layout : Layout) (v : LocalVariable × String) : PoolM Bytes := do
  let start ← layout.offset v.1.start
  let stop ← layout.offset v.1.stop
  if stop < start then throw (.write (.variableRange v.1.name))
  else
    let name ← Pool.utf8 v.1.name
    let type ← Pool.utf8 v.2
    return Bytes.u2 start ++ Bytes.u2 (stop - start) ++ Bytes.u2 name ++ Bytes.u2 type ++ Bytes.u2 v.1.index

def described (body : Body) : List (LocalVariable × String) :=
  body.localVariables.map fun v => (v, v.descriptor)

def signed (body : Body) : List (LocalVariable × String) :=
  body.localVariables.filterMap fun v => v.signature.map fun signature => (v, signature)

/-- The first annotation with a visibility on the exception of a range that is not there. -/
def missingCatch? (body : Body) (visible : Bool) : Option UInt16 :=
  (withVisibility visible body.typeAnnotations).findSome? fun a => match a.target with
    | .catch index => if body.tryCatches.length ≤ index.toNat then some index else none
    | _ => none

def typesAttribute (body : Body) (layout : Layout) (visible : Bool) : PoolM (List Attribute) :=
  match body.missingCatch? visible with
  | some index => throw (.write (.catchIndex index body.tryCatches.length))
  | none => typeAnnotationsAttribute (some layout.offset) visible body.typeAnnotations

def attributes (body : Body) (layout : Layout) : PoolM (List Attribute) := do
  let frames ← Attribute.makeIf (body.items.any Item.isFrame) Attribute.stackMapTableName (encodeFrameTable layout)
  let lines ← Attribute.makeIf (!body.lineNumbers.isEmpty) Attribute.lineNumberTableName
    (encodeList (encodeLineNumber layout) body.lineNumbers)
  let locals ← Attribute.makeIf (!body.described.isEmpty) Attribute.localVariableTableName
    (encodeList (encodeVariable layout) body.described)
  let signatures ← Attribute.makeIf (!body.signed.isEmpty) Attribute.localVariableTypeTableName
    (encodeList (encodeVariable layout) body.signed)
  let visible ← body.typesAttribute layout true
  let invisible ← body.typesAttribute layout false
  return frames ++ lines ++ locals ++ signatures ++ visible ++ invisible

def encode (body : Body) (access : UInt16) (descriptor : String) : PoolM Bytes := do
  let layout ← Layout.of body.items
  let code ← layout.emit
  let (stack, locals) ← body.maxsOf access descriptor
  let length ← Bytes.count4 code.length
  let tryCatches ← encodeList (encodeTryCatch layout) body.tryCatches
  let attributes ← body.attributes layout
  let attributes ← Attribute.encodeAll attributes
  return Bytes.u2 stack ++ Bytes.u2 locals ++ length ++ code ++ tryCatches ++ attributes

end ClassDoc.Body
