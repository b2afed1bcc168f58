import OpenRom.Protocol.Decode

/-!
# The generated parser

What `GenerateParser` emits for a definition, and what the emitted `Parser::Process` does with a
frame. The conditions are modelled as expressions, not as text.
-/

set_option autoImplicit false

namespace OpenRom

namespace ProtocolDefinition

/-! ## C types -/

/-- The size of a member of the type that `GenerateCType` gives. -/
def BuiltinType.sizeof : BuiltinType → Nat
  | unsigned t => max t.count 1 * t.width.bytes -- no array below two values
  | signed t => max t.count 1 * t.width.bytes
  | string n _ => n
  | float count _ => max count 1 * 4
  | double count _ => max count 1 * 8
  | length => 4
  | unixtime => 4

mutual

/-- The structs are packed. The size of a struct is that of its fields, as it is in the emitted code
when the node of the field adds nothing to its type (`TypedDefinition.LaysOut`). -/
def FieldType.sizeof : FieldType → Nat
  | .builtin object => object.type.sizeof
  | .struct _ actions => sizeofMembers actions

def sizeofMembers : List Action → Nat
  | [] => 0
  | .field _ type _ :: as => type.sizeof + sizeofMembers as
  | .transformationAction _ :: as => sizeofMembers as
  | .annotationAction _ :: as => sizeofMembers as

end

theorem sizeofMembers_field (name : String) (type : FieldType) (offset : UInt32)
    (as : List Action) :
    sizeofMembers (.field name type offset :: as) = type.sizeof + sizeofMembers as := rfl

/-! ## Conditions -/

/-- What `snprintf` makes of a fixed value, with `0x%x` or `%d`. -/
inductive Literal
  | hex (v : UInt32)
  | decimal (v : UInt32)
  deriving DecidableEq, Repr

def Literal.value : Literal → UInt32
  | hex v => v
  | decimal v => v

/-- The literal is compared with a member that has been promoted to `int`, or that is an
`unsigned int`. -/
def Literal.equals (literal : Literal) (isUnsigned : Bool) (x : Int) : Bool :=
  match literal with
  | hex v =>
      -- from 0x80000000 on the literal is an `unsigned int`
      if isUnsigned || decide (2 ^ 31 ≤ v.toNat) then x % 2 ^ 32 == v.toNat else x == v.toNat
  | decimal v =>
      if v.toNat = 2 ^ 31 then x == -2 ^ 31 -- 2147483648 is a `long`
      else if isUnsigned then x % 2 ^ 32 == v.toNat
      else x == v.toBitVec.toInt

/-- A scalar member that is compared with a fixed value, at an offset behind the header. -/
structure Comparison where
  offset : Nat
  width : Width
  signed : Bool
  literal : Literal
  deriving DecidableEq, Repr

/-- The member as an `int` or an `unsigned int`, from its bytes as an unsigned number. -/
def Comparison.promote (c : Comparison) (x : Nat) : Int :=
  if c.signed && decide (256 ^ c.width.bytes ≤ 2 * x) then (x : Int) - 256 ^ c.width.bytes else x

def Comparison.holds (c : Comparison) (x : Nat) : Bool :=
  c.literal.equals (c.width == .four && !c.signed) (c.promote x)

/-- One operand of the `&&` in a condition that the parser checks. -/
inductive Condition
  | sizeIs (n : Nat) -- `p_length == sizeof(struct ROM::Packet) + n`
  | sizeAtLeast (n : Nat) -- `p_length >= sizeof(struct ROM::Packet) + n`
  | sizeIsLength (offset n : Nat) -- `p_length == m_length + sizeof(struct ROM::Packet) + n`
  | lengthIs (offset n : Nat) -- `m_packet_length == n`
  | comparison (c : Comparison)
  deriving DecidableEq, Repr

/-- `sizeof(struct ROM::Packet)` -/
def romPacketSize : Nat := 12

/-- The member at an offset behind the header, if it is in the frame. -/
def readMember (bs : List UInt8) (offset width : Nat) : Option Nat :=
  if offset + width ≤ bs.length then
    some (LittleEndian.decode ((bs.drop offset).take width))
  else none

/-- The condition on a frame with this `p_length` and these bytes behind the header. Nothing, when
it reads behind the end of the frame. -/
def Condition.eval (pLength : Nat) (bs : List UInt8) : Condition → Option Bool
  | sizeIs n => some (pLength == romPacketSize + n)
  | sizeAtLeast n => some (decide (romPacketSize + n ≤ pLength))
  | sizeIsLength offset n => (readMember bs offset 4).map fun m => pLength == m + romPacketSize + n
  | lengthIs offset n => (readMember bs offset 4).map (· == n)
  | comparison c => (readMember bs c.offset c.width.bytes).map c.holds

/-- The operands are evaluated from left to right, up to the first that is false. -/
def evalAll (pLength : Nat) (bs : List UInt8) : List Condition → Option Bool
  | [] => some true
  | c :: cs =>
      match c.eval pLength bs with
      | none => none
      | some false => some false
      | some true => evalAll pLength bs cs

/-! ## The generator -/

/-- `GenerateCInitialize` of a numeric type, which fails the assertion on an array. -/
def UnsignedType.generateCInitialize (t : UnsignedType) : Option (List Literal) :=
  match t.fixedValue with
  | none => some []
  | some v =>
      if t.count ≠ 1 then none
      else
        match t.format with
        | .hex => some [.hex v]
        | .decimal => some [.decimal v]

def BuiltinType.generateCInitialize : BuiltinType → Option (List Literal)
  | unsigned t => t.generateCInitialize
  | signed t => t.generateCInitialize
  | string _ _ => some []
  | float _ _ => some []
  | double _ _ => some []
  | length => some []
  | unixtime => some []

mutual

/-- `GenerateCInitialize`. For a struct, the values of its fields one after the other. -/
def FieldType.generateCInitialize : FieldType → Option (List Literal)
  | .builtin object => object.type.generateCInitialize
  | .struct _ actions => generateCInitializers actions

def generateCInitializers : List Action → Option (List Literal)
  | [] => some []
  | .field _ type _ :: as =>
      match type.generateCInitialize, generateCInitializers as with
      | some init, some inits => some (init ++ inits)
      | _, _ => none
  | .transformationAction _ :: as => generateCInitializers as
  | .annotationAction _ :: as => generateCInitializers as

end

/-- The comparison of a member with its initial value, where C++ has one. -/
def FieldType.comparison (offset : Nat) (type : FieldType) (literal : Literal) :
    Option Comparison :=
  match type with
  | .builtin ⟨.unsigned t, _, _⟩ => some ⟨offset, t.width, false, literal⟩
  | .builtin ⟨.signed t, _, _⟩ => some ⟨offset, t.width, true, literal⟩
  | _ => none

/-- `GenerateMatchCondition`, for members from an offset on. -/
def generateMatchCondition (offset : Nat) : List Action → Option (List Comparison)
  | [] => some []
  | .field _ type _ :: as =>
      match type.generateCInitialize, generateMatchCondition (offset + type.sizeof) as with
      | some [], some cs => some cs
      | some [literal], some cs => (type.comparison offset literal).map (· :: cs)
      | _, _ => none -- not a C++ expression
  | .transformationAction _ :: as => generateMatchCondition offset as
  | .annotationAction _ :: as => generateMatchCondition offset as

/-- The sum of `GetConstantSize` over the fields. -/
def constantSizes : List Action → Nat
  | [] => 0
  | .field _ type _ :: as => type.constantSize.toNat + constantSizes as
  | .transformationAction _ :: as => constantSizes as
  | .annotationAction _ :: as => constantSizes as

/-- The offset of the first field of the type `length`. -/
def lengthOffset (offset : Nat) : List Action → Option Nat
  | [] => none
  | .field _ (.builtin ⟨.length, _, _⟩) _ :: _ => some offset
  | .field _ type _ :: as => lengthOffset (offset + type.sizeof) as
  | .transformationAction _ :: as => lengthOffset offset as
  | .annotationAction _ :: as => lengthOffset offset as

/-- Whether the loop over the fields of a subpacket meets neither a transformation nor a field
without a constant size. -/
def isConstantSize : List Action → Bool
  | [] => true
  | .field _ type _ :: as => decide (type.constantSize ≠ 0) && isConstantSize as
  | .transformationAction _ :: _ => false
  | .annotationAction _ :: as => isConstantSize as

/-- An `if` that constructs a request and calls `OnP_S`. -/
structure SubpacketBlock where
  index : Nat
  conditions : List Condition

/-- An `if` that constructs a request and calls `OnP` when there are no subpackets, and else
contains the blocks of those. -/
structure PacketBlock where
  index : Nat
  conditions : List Condition
  isAlone : Bool
  subpackets : List SubpacketBlock

/-- The conditions of a packet in front of its fixed values. -/
def Packet.sizeConditions (p : Packet) : List Condition :=
  if constantSizes p.actions = 0 then []
  else
    match lengthOffset 0 p.actions with
    | none => [.sizeIs (constantSizes p.actions)]
    | some offset => [.sizeAtLeast (constantSizes p.actions),
        .sizeIsLength offset (constantSizes p.actions)]

def Packet.subpacketSizeConditions (p : Packet) (sp : Subpacket) : List Condition :=
  match lengthOffset 0 p.actions with
  | none => []
  | some offset =>
      if 0 < constantSizes sp.actions ∧ isConstantSize sp.actions then
        [.lengthIs offset (constantSizes sp.actions)]
      else []

/-- The loop over the subpackets, from one of them on. Those without fixed values are skipped. -/
def Packet.generateSubpackets (p : Packet) (k : Nat) : List Subpacket → Option (List SubpacketBlock)
  | [] => some []
  | sp :: sps =>
      match generateMatchCondition (sizeofMembers p.actions) sp.actions with
      | none => none
      | some [] => p.generateSubpackets (k + 1) sps
      | some (c :: cs) =>
          (p.generateSubpackets (k + 1) sps).map fun blocks =>
            ⟨k, p.subpacketSizeConditions sp ++ (c :: cs).map .comparison⟩ :: blocks

/-- The loop over the packets. Those without fixed values are skipped. -/
def generatePackets (i : Nat) : List Packet → Option (List PacketBlock)
  | [] => some []
  | p :: ps =>
      match generateMatchCondition 0 p.actions with
      | none => none
      | some [] => generatePackets (i + 1) ps
      | some (c :: cs) =>
          match p.generateSubpackets 0 p.subpackets with
          | none => none
          | some subpackets =>
              (generatePackets (i + 1) ps).map fun blocks =>
                ⟨i, p.sizeConditions ++ (c :: cs).map .comparison, p.subpackets.isEmpty,
                  subpackets⟩ :: blocks

/-- `GenerateParser`, when nothing was added to the types of the fields and no array is too short
for what is printed into it (`TypedDefinition.Emits`). Nothing, when the generator stops or the code
that it emits does not compile. -/
def generateParser (d : ProtocolDefinition) : Option (List PacketBlock) :=
  generatePackets 0 d.packets

/-! ## The emitted code -/

/-- What the emitted code calls. -/
inductive Dispatch
  | on (packet : Nat) (subpacket : Option Nat)
  | undefined -- it reads behind the end of the frame
  deriving DecidableEq, Repr

def runSubpackets (pLength : Nat) (bs : List UInt8) (i : Nat) :
    List SubpacketBlock → Option Dispatch
  | [] => none
  | block :: blocks =>
      match evalAll pLength bs block.conditions with
      | none => some .undefined
      | some true => some (.on i (some block.index))
      | some false => runSubpackets pLength bs i blocks

def runPackets (pLength : Nat) (bs : List UInt8) : List PacketBlock → Option Dispatch
  | [] => none
  | block :: blocks =>
      match evalAll pLength bs block.conditions with
      | none => some .undefined
      | some false => runPackets pLength bs blocks
      | some true =>
          if block.isAlone then some (.on block.index none)
          else
            match runSubpackets pLength bs block.index block.subpackets with
            | some dispatch => some dispatch
            | none => runPackets pLength bs blocks

/-- The emitted `Parser::Process`, on the frame that `pData` points to. -/
def parserProcess (parser : List PacketBlock) (frame : List UInt8) : Option Dispatch :=
  let pLength := LittleEndian.decode (frame.take 4)
  if frame.length < romPacketSize then none
  else if pLength ≠ frame.length then none
  else runPackets pLength (frame.drop romPacketSize) parser

end ProtocolDefinition

end OpenRom
