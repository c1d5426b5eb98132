/-
  The code of a method as a class file has it, with offsets in place of labels.

  Every offset that something refers to gets a label, numbered in the order of the offsets. Labels have to stand at the
  start of an instruction or at the end of the code, frames at the start of an instruction.
-/
import ClassDoc.Fault.Basic
import Std.Data.HashMap
import Std.Data.HashSet
namespace ClassDoc

/-- A try-catch with positions in place of labels. -/
structure RawTryCatch where
  start : UInt16
  stop : UInt16
  handler : UInt16
  catchType : Option String

/-- A local variable with positions in place of labels. -/
structure RawVariable where
  start : UInt16
  stop : UInt16
  name : String
  descriptor : String
  index : UInt16

/-- What a local variable and its signature have in common: start, length, index and name. -/
abbrev VariableKey := UInt16 × UInt16 × UInt16 × String

/-- A code with positions in place of labels. -/
structure RawCode where
  maxStack : UInt16
  maxLocals : UInt16
  length : UInt16
  insns : List (UInt16 × Insn UInt16)
  tryCatches : List RawTryCatch
  frames : List (UInt16 × Frame UInt16)
  lines : List (UInt16 × UInt16)
  locals : List RawVariable
  signatures : List (VariableKey × String)
  typeAnnotations : List (Bool × TypeAnnotation UInt16)

namespace RawCode

variable (code : RawCode)

/-! ## Labels -/

def references : List UInt16 :=
  code.insns.flatMap (fun i => i.2.targets)
    ++ code.tryCatches.flatMap (fun t => [t.start, t.stop, t.handler])
    ++ code.frames.flatMap (fun f => f.2.labels)
    ++ code.lines.map Prod.fst
    ++ code.locals.flatMap (fun v => [v.start, v.stop])
    ++ code.typeAnnotations.flatMap (fun a => a.2.target.labels)

def dropRepeats : List UInt16 → List UInt16
  | a :: b :: rest => if a = b then dropRepeats (b :: rest) else a :: dropRepeats (b :: rest)
  | rest => rest

def labelOffsets : List UInt16 := dropRepeats (code.references.mergeSort fun a b => a ≤ b)

def labels : Std.HashMap UInt16 Label :=
  code.labelOffsets.zipIdx.foldl (fun labels (offset, i) => labels.insert offset ⟨UInt32.ofNat i⟩) {}

def starts : Std.HashSet UInt16 := code.insns.foldl (fun starts i => starts.insert i.1) {}

def check : Except Fault Unit :=
  let starts := code.starts
  match code.labelOffsets.find? fun offset => !starts.contains offset && offset != code.length with
  | some offset => .error (.read (.labelInside offset))
  | none =>
    match code.frames.find? fun f => !starts.contains f.1 with
    | some f => .error (.read (.frameInside f.1))
    | none => .ok ()

/-! ## Events -/

def labelAt (labels : Std.HashMap UInt16 Label) (offset : UInt16) : Label := labels[offset]?.getD ⟨0⟩

/-- The frame at each offset; of several the last one counts. -/
def framesAt : Std.HashMap UInt16 (Frame UInt16) := code.frames.foldl (fun frames f => frames.insert f.1 f.2) {}

/-- The lines at each offset, in reverse. -/
def linesAt : Std.HashMap UInt16 (List UInt16) :=
  code.lines.foldl (fun lines l => lines.insert l.1 (l.2 :: lines[l.1]?.getD [])) {}

def tryCatchEvents (labels : Std.HashMap UInt16 Label) : List CodeEvent :=
  code.tryCatches.map fun t =>
    .tryCatch ⟨labelAt labels t.start, labelAt labels t.stop, labelAt labels t.handler, t.catchType⟩

/-- An instruction with what stands before it: the label, the lines of the label, and the frame. -/
def insnEvents (labels : Std.HashMap UInt16 Label) (frames : Std.HashMap UInt16 (Frame UInt16))
    (lines : Std.HashMap UInt16 (List UInt16)) (i : UInt16 × Insn UInt16) : List CodeEvent :=
  let label := match labels[i.1]? with
    | some l => .label l :: (lines[i.1]?.getD []).reverse.map fun line => .lineNumber line l
    | none => []
  let frame := match frames[i.1]? with
    | some f => [.frame (Id.run (f.mapLabels (labelAt labels)))]
    | none => []
  label ++ frame ++ [.insn (Id.run (i.2.mapLabels (labelAt labels)))]

def endEvents (labels : Std.HashMap UInt16 Label) : List CodeEvent :=
  match labels[code.length]? with
  | some l => [.label l]
  | none => []

/-- The signatures of the local variables; of several the last one counts. -/
def signaturesOf : Std.HashMap VariableKey String :=
  code.signatures.foldl (fun signatures s => signatures.insert s.1 s.2) {}

/-- The local variables. Each signature goes to the first variable it belongs to; `found` holds the events so far in
reverse. -/
def variableEvents (labels : Std.HashMap UInt16 Label) (signatures : Std.HashMap VariableKey String)
    (found : List CodeEvent) : List RawVariable → List CodeEvent
  | [] => found.reverse
  | v :: rest =>
    let key : VariableKey := (v.start, v.stop - v.start, v.index, v.name)
    let event := .localVariable
      ⟨v.name, v.descriptor, signatures[key]?, labelAt labels v.start, labelAt labels v.stop, v.index⟩
    variableEvents labels (signatures.erase key) (event :: found) rest

def typeEvents (labels : Std.HashMap UInt16 Label) : List CodeEvent :=
  code.typeAnnotations.map fun (visible, a) => .annotateType visible (Id.run (a.mapLabels (labelAt labels)))

def events : Except Fault (List CodeEvent) := do
  code.check
  let labels := code.labels
  return code.tryCatchEvents labels
    ++ code.insns.flatMap (insnEvents labels code.framesAt code.linesAt)
    ++ code.endEvents labels
    ++ variableEvents labels code.signaturesOf [] code.locals
    ++ code.typeEvents labels
    ++ [.maxs code.maxStack code.maxLocals]

end RawCode

end ClassDoc
