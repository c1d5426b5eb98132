/-
  What can go wrong while a class file is read or written.
-/
import ClassDoc.Descriptor
import ClassDoc.Event
import ClassDoc.Pool.Entry
namespace ClassDoc

/-- Why bytes are no class file. -/
inductive ReadProblem where
  | endOfInput (number : String)
  | shortInput (size remaining : Nat)
  | magic (got : UInt32)
  | version (got : Version)
  | poolTag (tag : UInt8) (index : Nat)
  | notText
  | loneSurrogate
  | noEntry (index : UInt16)
  | notEntry (expected : String) (got : PoolEntry)
  | notMember (got : PoolEntry)
  | handleKind (kind : UInt8) (index : UInt16)
  | notLoadable (got : PoolEntry)
  | notConstantValue (got : PoolEntry)
  | tooDeep (limit : Nat)
  | noBootstrapMethod (index : UInt16)
  | targetOutsideCode (targetType : UInt8)
  | unknownTarget (targetType : UInt8)
  | variableRange
  | elementTag (tag : UInt8)
  | codeLength (got : UInt32)
  | opcode (op : Opcode)
  | wideOpcode (op : Opcode)
  | tableBounds (low high : Int32)
  | pairCount (got : Int32)
  | shortBranch (branch : Int16) (position : UInt16)
  | longBranch (branch : Int32) (position : UInt16)
  | farTarget
  | verificationType (tag : UInt8)
  | frameType (tag : UInt8)
  | frameOffset
  | labelBound (offset length : UInt16)
  | labelInside (offset : UInt16)
  | frameInside (offset : UInt16)

def outOfRange (negative : Bool) : String :=
  "number too " ++ (if negative then "small" else "large") ++ " to fit in target type"

def ReadProblem.message : ReadProblem → String
  | endOfInput number => s!"couldn't read {number}, perhaps the data's end is reached?: failed to fill whole buffer"
  | shortInput size remaining => s!"can't read {size} bytes, only {remaining} bytes are left"
  | magic got => s!"wrong magic: got {Hex.tagged 1 got.toNat}, expected 0xCAFEBABE"
  | version got => s!"unsupported class file version: {literal got.major}.{literal got.minor}"
  | poolTag tag index => s!"unknown constant pool tag {literal tag} at pool index {index}"
  | notText => "invalid java utf8 contents"
  | loneSurrogate => "name contains an unpaired surrogate"
  | noEntry index =>
    s!"pool entry at index {literal index} is not there: either index too large or the upper half of long or double"
  | notEntry expected got => s!"pool entry not `{expected}`: {literal got}"
  | notMember got => s!"pool entry not a member reference: {literal got}"
  | handleKind kind index => s!"unknown `reference_kind` {literal kind} for `MethodHandle` pool entry at {literal index}"
  | notLoadable got => s!"pool entry is not loadable: {literal got}"
  | notConstantValue got => s!"pool entry may not be used in a `ConstantValue` attribute: {literal got}"
  | tooDeep limit => s!"dynamic constants nested deeper than {limit}"
  | noBootstrapMethod index => s!"there's no bootstrap method at index {literal index}"
  | targetOutsideCode targetType =>
    s!"type annotation target type {Hex.tagged 2 targetType.toNat} is only allowed in code"
  | unknownTarget targetType => s!"unknown type annotation target type {Hex.tagged 2 targetType.toNat}"
  | variableRange => "local variable range out of bounds"
  | elementTag tag => s!"unknown element value tag {Quoted.char (Char.ofNat tag.toNat)}"
  | codeLength got => s!"`code_length` must be greater than zero and less than 65536, got {literal got}"
  | opcode op => s!"unknown opcode {Hex.lower op.toNat}"
  | wideOpcode op => s!"unknown wide opcode {Hex.lower op.toNat}"
  | tableBounds low high =>
    s!"in tableswitch `low` must be lower or equal to `high`, it's low={literal low} and high={literal high}"
  | pairCount got => s!"in lookupswitch the `npairs` must be positive, it's npairs={literal got}"
  | shortBranch branch position =>
    s!"can't add branch offset (i16) of {literal branch} to opcode position (u16) {literal position}"
  | longBranch branch position =>
    s!"can't add branch offset (i32) of {literal branch} to opcode position (u16) {literal position}"
  | farTarget => outOfRange false
  | verificationType tag => s!"unknown verification type info tag {literal tag}"
  | frameType tag => s!"reserved stack map frame type {literal tag}"
  | frameOffset => "stack map frame offset out of range"
  | labelBound offset length =>
    s!"label for bytecode offset {literal offset} out of bounds for code length {literal length}"
  | labelInside offset => s!"label at offset {literal offset} which is not an instruction start"
  | frameInside offset => s!"stack map frame at offset {literal offset} which is not an instruction start"

/-- Why events give no class file. -/
inductive WriteProblem where
  /-- A length or number does not fit into the bits it has in the class file. -/
  | tooLarge (value : Nat) (number : String)
  | poolFull (entry : PoolEntry) (index : Nat)
  | bootstrapFull (method : BootstrapMethod)
  | outsideMethod
  | afterMember (event : ClassEvent)
  | noHeader
  | notEnded
  | enclosingMethod
  | afterEnd (event : ClassEvent)
  | secondHeader (header : ClassHeader)
  | headerFirst (event : ClassEvent)
  | fieldValue (value : Constant)
  | annotableParameter (parameter : UInt8) (count : Nat)
  | labelOutsideCode (label : Label)
  | targetForm (target : TypeTarget Label) (targetType : UInt8)
  | targetPlace (targetType : UInt8) (inCode : Bool)
  | annotatedRange (index : UInt16)
  | undefinedLabel (label : Label)
  | labelOffset (offset : Nat) (label : Label)
  | definedTwice (label : Label)
  | codeLength (got : Nat)
  | notSimple (op : Opcode)
  | pushRange (mnemonic : String) (value : Int32)
  | elementType (value : Int32)
  | notInt (op : Opcode)
  | notVariable (op : Opcode)
  | notType (op : Opcode)
  | notField (op : Opcode)
  | notMethod (op : Opcode)
  | notJump (op : Opcode)
  | noInverse (op : Opcode)
  | tableSize (low high : Int32) (targets : Nat)
  | duplicateKey (key : Int32)
  | noDimension (descriptor : String)
  | stackItemFrame (items : Nat)
  | chopFrame (count : UInt8)
  | appendFrame (count : Nat)
  | frameAtEnd
  | secondFrame (offset : Nat)
  | emptyRange (start stop : Nat)
  | catchIndex (index : UInt16) (tryCatches : Nat)
  | variableRange (name : String)
  | underflow (insn : Insn Label)
  | maxStack (got : Nat)
  | maxLocals (got : Nat)

def WriteProblem.message : WriteProblem → String
  | tooLarge value number => s!"failed to convert {value} to {number} for writing: value too large: {outOfRange false}"
  | poolFull entry index =>
    s!"pool count overflowed while adding pool entry {literal entry} to pool at index {index}"
  | bootstrapFull method =>
    s!"bootstrap methods attribute count overflowed while adding bootstrap method {literal method}: {outOfRange false}"
  | outsideMethod => "got a method level event outside of a method"
  | afterMember event => s!"got class level event {literal event} after the first member"
  | noHeader => "no class header was written"
  | notEnded => "class was not ended"
  | enclosingMethod => "enclosing method needs both name and descriptor, or neither"
  | afterEnd event => s!"got event {literal event} after the end of the class"
  | secondHeader header => s!"got a second class header {literal header}"
  | headerFirst event => s!"expected the class header first, got {literal event}"
  | fieldValue value => s!"field constant value {literal value} must be a number or a string"
  | annotableParameter parameter count =>
    s!"annotation on parameter {literal parameter}, but only {count} parameters are annotable"
  | labelOutsideCode label => s!"type annotation outside of code refers to label {literal label}"
  | targetForm target targetType =>
    s!"type annotation target {literal target} doesn't fit the target type {Hex.tagged 2 targetType.toNat}"
  | targetPlace targetType inCode =>
    s!"type annotation with target type {Hex.tagged 2 targetType.toNat} can't be "
      ++ (if inCode then "inside of" else "outside of") ++ " code"
  | annotatedRange index => s!"type annotated local variable {literal index} ends before it starts"
  | undefinedLabel label => s!"reference to undefined label {literal label}"
  | labelOffset offset label => s!"offset {offset} of label {literal label} is too large: {outOfRange false}"
  | definedTwice label => s!"label {literal label} is defined more than once"
  | codeLength got => s!"code length {got} is out of range, must be in 1..=65535"
  | notSimple op => s!"opcode {Hex.tagged 2 op.toNat} is not an instruction without operands"
  | pushRange mnemonic value => s!"{mnemonic} operand {literal value} out of range: {outOfRange (value < 0)}"
  | elementType value => s!"invalid newarray type {literal value}"
  | notInt op => s!"opcode {Hex.tagged 2 op.toNat} doesn't take an int operand"
  | notVariable op => s!"opcode {Hex.tagged 2 op.toNat} doesn't take a local variable operand"
  | notType op => s!"opcode {Hex.tagged 2 op.toNat} doesn't take a type operand"
  | notField op => s!"opcode {Hex.tagged 2 op.toNat} is not a field instruction"
  | notMethod op => s!"opcode {Hex.tagged 2 op.toNat} is not a method instruction"
  | notJump op => s!"opcode {Hex.tagged 2 op.toNat} is not a jump"
  | noInverse op => s!"no inverted condition for opcode {Hex.tagged 2 op.toNat}"
  | tableSize low high targets => s!"tableswitch from {literal low} to {literal high} has {targets} labels"
  | duplicateKey key => s!"lookupswitch has duplicate key {literal key}"
  | noDimension descriptor => s!"multianewarray of {literal descriptor} with zero dimensions"
  | stackItemFrame items => s!"same locals 1 stack item frame with {items} stack items"
  | chopFrame count => s!"chop frame removing {literal count} locals, must be 1 to 3"
  | appendFrame count => s!"append frame adding {count} locals, must be 1 to 3"
  | frameAtEnd => "frame at the end of the code doesn't describe an instruction"
  | secondFrame offset => s!"more than one frame at bytecode offset {offset}"
  | emptyRange start stop => s!"exception range from {start} to {stop} is empty"
  | catchIndex index tryCatches =>
    s!"type annotation refers to exception table entry {literal index}, but there are only {tryCatches}"
  | variableRange name => s!"local variable {literal name} ends before it starts"
  | underflow insn => s!"operand stack underflow at {literal insn}"
  | maxStack got => s!"max stack of {got} is too large: {outOfRange false}"
  | maxLocals got => s!"max locals of {got} is too large: {outOfRange false}"

end ClassDoc
