/-
  What can be wrong with a document or a model.
-/
import ClassDoc.Descriptor
import ClassDoc.Model.Basic
namespace ClassDoc

/-! ## Names -/

/-- Why a text or a path is no name. -/
inductive NameProblem where
  | empty
  | mustBeEscaped (c : Char)
  | truncated
  | unknownEscape (letter : Char)
  | expectedDigits (count : Nat) (letter : Char)
  | invalidCharacter (code : Nat)
  | notCanonical (letter : Char) (digits : String) (c : Char)
  | wrongExtension (extension : String)
  | notRelative
  | otherSuffix (suffix descriptor : String)
  deriving DecidableEq

def NameProblem.message : NameProblem → String
  | empty => "empty name"
  | mustBeEscaped c => s!"character {Quoted.char c} must be escaped"
  | truncated => "truncated escape at the end"
  | unknownEscape letter => s!"unknown escape _{letter}"
  | expectedDigits count letter => s!"expected {count} upper case hex digits after _{letter}"
  | invalidCharacter code => s!"{Hex.tagged 1 code} is not a valid character"
  | notCanonical letter digits c => s!"_{letter}{digits} is not the canonical escape of {Quoted.char c}"
  | wrongExtension extension => s!"expected a .{extension} file"
  | notRelative => "expected a relative path without `.` and `..`"
  | otherSuffix suffix descriptor =>
    s!"the overload suffix {literal suffix} doesn't match the descriptor {literal descriptor}"

/-! ## Values -/

/-- Why a text is no value. -/
inductive ValueProblem where
  | digitCount (expected got : Nat)
  | notHex
  | oddDigits
  | notText
  | loneSurrogate
  | dataOfNone
  | notBool
  | expected (what got : String)
  | handleKind (got : Operand)
  | components (expected got : Nat)
  | notHandle
  | label (problem : Label.Problem)
  | pathUnterminated
  | pathIndex
  | pathRange
  | pathStep
  | notDecimal
  | numberTooLarge
  | notFlag
  | notVisibility
  | unknownTarget
  | unknownFrameKind

def ValueProblem.message : ValueProblem → String
  | digitCount wanted got => s!"expected {wanted} hex digits, got {got}"
  | notHex => "expected hex digits"
  | oddDigits => "odd number of hex digits"
  | notText => "invalid modified utf8"
  | loneSurrogate => "contains an unpaired surrogate"
  | dataOfNone => "none has no data"
  | notBool => "expected 00 or 01"
  | expected what got => s!"expected {what}, got {got}"
  | handleKind got => s!"expected an int from 1 to 9, got {literal got}"
  | components wanted got => s!"expected {wanted} components, got {got}"
  | notHandle => "expected a handle"
  | label problem => problem.message
  | pathUnterminated => "type argument without `;`"
  | pathIndex => "expected a decimal type argument index"
  | pathRange => "type argument index out of range"
  | pathStep => "unknown step"
  | notDecimal => "expected a decimal number"
  | numberTooLarge => "number too large to fit in target type"
  | notFlag => "expected true or false"
  | notVisibility => "expected runtime or class"
  | unknownTarget => "unknown type annotation target"
  | unknownFrameKind => "unknown frame kind"

/-! ## Labels -/

/-- What a label is used for. -/
inductive Usage where
  | instruction (mnemonic : String)
  | tryStart
  | tryEnd
  | handler
  | frame
  | line (number : UInt16)
  | localVariable (name : String)
  | annotatedType (descriptor : String)
  deriving DecidableEq

def Usage.text : Usage → String
  | instruction mnemonic => mnemonic
  | tryStart => "try-catch start"
  | tryEnd => "try-catch end"
  | handler => "try-catch handler"
  | frame => "frame"
  | line number => s!"line {number.toNat}"
  | localVariable name => s!"local variable {literal name}"
  | annotatedType descriptor => s!"type annotation {literal descriptor}"

/-- Why jumps and labels do not fit. -/
inductive FlowProblem where
  /-- The operand is no label; `got` tells what it is. -/
  | notLabel (mnemonic got : String)
  | notLabels (mnemonic got : String)
  | notLabelTargets (mnemonic got : String)
  | targetCount (mnemonic : String) (got : Nat)
  | tableOperands (got : Nat)
  | lookupOperands (got : Nat)
  | definedTwice (label : Label)
  | undefined (usage : Usage) (label : Label)
  deriving DecidableEq

def FlowProblem.message : FlowProblem → String
  | notLabel mnemonic got => s!"{mnemonic} needs a label as jump target, got {got}"
  | notLabels mnemonic got => s!"{mnemonic} needs an array of labels, got {got}"
  | notLabelTargets mnemonic got => s!"{mnemonic} needs an array of labels as jump targets, got {got}"
  | targetCount mnemonic got => s!"{mnemonic} needs exactly one jump target, got {got} operands"
  | tableOperands got => s!"tableswitch needs low, high, default and labels, got {got} operands"
  | lookupOperands got => s!"lookupswitch needs default, keys and labels, got {got} operands"
  | definedTwice label => s!"label {label.text} is defined more than once"
  | undefined usage label => s!"{usage.text} refers to undefined label {label.text}"

/-! ## Nodes -/

/-- What a node lacks. -/
inductive Missing where
  | attr (name : String)
  | data (tag : String)
  | component (what tag : String)
  | annotationValue
  | methodEntries
  | label (label : Label) (usage : Usage)
  deriving DecidableEq

def Missing.text : Missing → String
  | attr name => s!"attribute {literal name}"
  | data tag => s!"attribute \"data\" for type {literal tag}"
  | component what tag => s!"{what} of {tag}"
  | annotationValue => "annotation value"
  | methodEntries => "method entries"
  | label l usage => s!"label {l.text}, used by {usage.text}"

/-! ## Structure -/

/-- How far a sequence of class events has come. -/
inductive Stage where
  | awaitingClass
  /-- After the class header, in the class itself or in a field. -/
  | inClass (inField : Bool)
  | inMethod
  | closed
  deriving DecidableEq, Inhabited

instance : Literal Stage where
  literal
    | .awaitingClass => "AwaitingClass"
    | .inClass inField => Literal.record "InClass" [("in_field", literal inField)]
    | .inMethod => "InMethod"
    | .closed => "Closed"

/-- A rule of class files that a class breaks. -/
inductive Violation where
  | visibility (access : UInt16)
  | interfaceNotAbstract
  | interfaceFinal
  | moduleFlag (access : UInt16)
  | targetPlace (targetType : UInt8)
  | targetForm (target : TypeTarget Label) (targetType : UInt8)
  | duplicateComponent (name : String)
  | duplicateField (name descriptor : String)
  | duplicateMethod (name descriptor : String)
  | componentDescriptor (name : String) (problem : Descriptor.Problem)
  | fieldDescriptor (name : String) (problem : Descriptor.Problem)
  | methodDescriptor (name : String) (problem : Descriptor.Problem)
  | finalVolatile (name : String)
  | initialValue (name descriptor : String) (value : Operand)
  | abstractAccess (name : String) (access : UInt16)
  | noBody (name : String)
  | unexpectedBody (name : String)
  | bodyParts (name : String)
  | singleMax (name : String)
  | parameterCount (name : String) (parameters : Nat) (descriptor : String) (arguments : Nat)
  | annotableCount (count : UInt8) (descriptor : String) (arguments : Nat)
  | annotatedParameter (index : Nat) (count : UInt8)
  | catchIndex (index : UInt16) (tryCatches : Nat)
  | frameLists (kind : FrameKind) (locals stack : Nat)
  | operandShape (mnemonic expected : String) (got : List String)
  | loneSurrogate (text : JavaText)
  | handleKind (kind : UInt8)
  | operandRange (mnemonic what : String) (value : Int32)
  | unknownOpcode (op : Opcode)
  | tableSize (low high : Int32) (targets : Nat)
  | lookupSize (keys targets : Nat)
  | lookupKey (got : String)
  | noDimension
  | pathStep (kind argument : UInt8)
  | unexpectedEvent (event : ClassEvent) (stage : Stage)
  | annotableArguments (count : UInt8) (arguments : Nat)
  | annotatedRange (index : UInt8)
  | noParameter (method : String) (index : UInt8)
  | eventsEnded (stage : Stage)
  | notAnnotable (index : Nat)
  | repeated (what : String)
  | repeatedProperty (descriptor name : String)
  | parameterOrder (expected got : Nat)
  | unknownMnemonic (mnemonic : String)
  | repeatedList (kind : String)

def Violation.message : Violation → String
  | visibility access =>
    s!"at most one of public, private and protected may be set, got access {Hex.tagged 4 access.toNat}"
  | interfaceNotAbstract => "interfaces must be abstract"
  | interfaceFinal => "interfaces cannot be final"
  | moduleFlag access =>
    s!"only a class with the module flag can describe a module, got access {Hex.tagged 4 access.toNat}"
  | targetPlace targetType => s!"a type annotation with target type {Hex.tagged 2 targetType.toNat} can't be here"
  | targetForm target targetType =>
    s!"type annotation target {target.toLiteral Operand.labelLiteral} doesn't fit the target type "
      ++ Hex.tagged 2 targetType.toNat
  | duplicateComponent name => s!"duplicate record component {literal name}"
  | duplicateField name descriptor => s!"duplicate field {literal name} {literal descriptor}"
  | duplicateMethod name descriptor => s!"duplicate method {literal name}{descriptor}"
  | componentDescriptor name problem =>
    s!"record component {literal name} has an invalid descriptor: {problem.message}"
  | fieldDescriptor name problem => s!"field {literal name} has an invalid descriptor: {problem.message}"
  | methodDescriptor name problem => s!"method {literal name} has an invalid descriptor: {problem.message}"
  | finalVolatile name => s!"field {literal name} cannot be both final and volatile"
  | initialValue name descriptor value =>
    s!"field {literal name} of type {descriptor} cannot have the initial value {literal value}"
  | abstractAccess name access => s!"abstract method {literal name} has conflicting access {Hex.tagged 4 access.toNat}"
  | noBody name => s!"method {literal name} needs a body"
  | unexpectedBody name => s!"abstract or native method {literal name} cannot have a body"
  | bodyParts name => s!"method {literal name} has no body, but local variables or maxs"
  | singleMax name => s!"method {literal name} must give both max stack and max locals, or neither"
  | parameterCount name parameters descriptor arguments =>
    s!"method {literal name} has {parameters} parameters, but its descriptor {descriptor} has {arguments} arguments"
  | annotableCount count descriptor arguments =>
    s!"{literal count} annotable parameters, but the descriptor {descriptor} has {arguments} arguments"
  | annotatedParameter index count =>
    s!"parameter {index} is annotated, but only the last {literal count} parameters are annotable"
  | catchIndex index tryCatches =>
    s!"type annotation on the exception of try-catch {literal index}, but there are only {tryCatches}"
  | frameLists kind locals stack => s!"a {literal kind} frame can't have {locals} locals and {stack} stack items"
  | operandShape mnemonic expected got => s!"{mnemonic} takes {expected}, got {Literal.list got}"
  | loneSurrogate text => s!"name or descriptor {literal text} contains an unpaired surrogate"
  | handleKind kind => s!"invalid method handle kind {literal kind}"
  | operandRange mnemonic what value => s!"{mnemonic} {what} {literal value} is out of range"
  | unknownOpcode op => s!"unknown opcode {Hex.tagged 2 op.toNat}"
  | tableSize low high targets =>
    s!"tableswitch from {literal low} to {literal high} can't have {targets} targets"
  | lookupSize keys targets => s!"lookupswitch has {keys} keys but {targets} targets"
  | lookupKey got => s!"lookupswitch keys must be int, got {got}"
  | noDimension => "multianewarray needs at least one dimension"
  | pathStep kind argument => s!"type path step of kind {literal kind} with argument {literal argument}"
  | unexpectedEvent event stage => s!"unexpected event {literal event} while {literal stage}"
  | annotableArguments count arguments => s!"{literal count} annotable parameters, but only {arguments} arguments"
  | annotatedRange index => s!"annotated parameter {literal index} is out of range"
  | noParameter method index => s!"method {literal method} has no parameter {literal index}"
  | eventsEnded stage => s!"class events ended while {literal stage}"
  | notAnnotable index => s!"parameter {index} is annotated, but isn't annotable"
  | repeated what => s!"more than one {what}"
  | repeatedProperty descriptor name => s!"annotation {literal descriptor} has the property {literal name} twice"
  | parameterOrder expected got => s!"expected parameter {expected}, got parameter {got}"
  | unknownMnemonic mnemonic => s!"unknown opcode {literal mnemonic}"
  | repeatedList kind => s!"frame has more than one {literal kind}"

end ClassDoc
