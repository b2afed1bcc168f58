import OpenRom.Library.Allocation
import OpenRom.Library.Numeral
import OpenRom.Protocol.Layout

/-!
# Definition documents

The document that `Load` reads, as the tree of nodes that the XML parser makes of it, the numbers in
its attributes, and the definition while it is loaded. Cloning a type allocates the arrays that it
holds. These can be of any size; that single objects can be allocated is taken for granted.
-/

set_option autoImplicit false

namespace OpenRom

namespace ProtocolDefinition

open Allocation

/-! ## Nodes -/

/-- `xmlNode`: an element, or a node of another kind, such as text. -/
inductive XmlNode
  | element (name : String) (attributes : List (String × String)) (children : List XmlNode)
  | other

namespace XmlNode

def isElement : XmlNode → Bool
  | element _ _ _ => true
  | other => false

/-- The name of an element. -/
def tag : XmlNode → Option String
  | element name _ _ => some name
  | other => none

/-- `xmlGetProp` -/
def getProp (n : XmlNode) (name : String) : Option String :=
  match n with
  | element _ attributes _ => attributes.lookup name
  | other => none

def children : XmlNode → List XmlNode
  | element _ _ children => children
  | other => []

mutual

/-- Induction over the nodes in a document. -/
@[elab_as_elim] theorem induction {motive : XmlNode → Prop}
    (hElement : ∀ name attributes children, (∀ n ∈ children, motive n) →
      motive (element name attributes children)) (hOther : motive other) : ∀ n, motive n
  | element name attributes children =>
      hElement name attributes children (induction_list hElement hOther children)
  | other => hOther

theorem induction_list {motive : XmlNode → Prop}
    (hElement : ∀ name attributes children, (∀ n ∈ children, motive n) →
      motive (element name attributes children)) (hOther : motive other) :
    ∀ ns : List XmlNode, ∀ n ∈ ns, motive n
  | [] => nofun
  | m :: ns => List.forall_mem_cons.2
      ⟨induction hElement hOther m, induction_list hElement hOther ns⟩

end

end XmlNode

/-! ## Numbers -/

/-- `strtol`, whose result is a `long` of eight bytes, and the rest of the string. Without a digit
nothing is read. -/
def strtol (base : Nat) (s : List Char) : Int × List Char :=
  match Numeral.scan Char.toNat base s with
  | none => (0, s)
  | some (negative, v, rest) =>
      let v : Int := if negative then -v else v
      -- what is out of range becomes `LONG_MAX` or `LONG_MIN`
      (max (-2 ^ 63) (min v (2 ^ 63 - 1)), rest)

/-- A number as an `int`. -/
def toInt (v : Int) : Int := Int.bmod v (2 ^ 32)

/-- A number as an `uint32_t`. -/
def toUInt32 (v : Int) : UInt32 := .ofNat (v % 2 ^ 32).toNat

/-! ## What is being loaded -/

structure Enumeration where
  name : String
  entries : List (Int × String)
  deriving DecidableEq, Repr

/-- `Packet::Source`, of a packet that has one. -/
inductive Source
  | server
  | client
  deriving DecidableEq, Repr

/-- A `Packet` in `m_Packet`, as `ParseNode` leaves it. -/
structure LoadedPacket where
  name : String
  source : Source
  actions : List Action
  subpackets : List Subpacket
  numPacketBytes : Int

/-- A `ProtocolDefinition` while it is loaded. The providers have been registered before. The
constructor of strings sets no length, so that of the prototype in `m_Types` may be any number. -/
structure Loader where
  version : Int
  transformations : List Transformation
  annotations : List String
  stringLength : Int
  definitions : List (String × String)
  enums : List Enumeration
  structs : List StructType
  packets : List LoadedPacket

namespace Loader

def lookupEnumeration (l : Loader) (name : String) : Option Enumeration :=
  l.enums.find? (·.name == name)

def lookupAnnotation (l : Loader) (name : String) : Option String := l.annotations.find? (· == name)

def lookupDefinition (l : Loader) (name : String) : Option String := l.definitions.lookup name

def lookupTransformation (l : Loader) (name : String) : Option Transformation :=
  l.transformations.find? (·.name == name)

/-- `ResolveStringToNumber`: the number, and whether all of the string was one. -/
def resolveStringToNumber (l : Loader) (s : String) : Int × Bool :=
  let (v, rest) := strtol 0 ((l.lookupDefinition s).getD s).toList
  (v, rest.isEmpty)

end Loader

/-! ## Built-in types -/

/-- The name of the type in `m_Types`. -/
def BuiltinType.name : BuiltinType → String
  | unsigned t =>
      match t.width with
      | .one => "u8"
      | .two => "u16"
      | .four => "u32"
  | signed t =>
      match t.width with
      | .one => "s8"
      | .two => "s16"
      | .four => "s32"
  | string _ _ => "string"
  | float _ _ => "float"
  | double _ _ => "double"
  | length => "length"
  | unixtime => "unixtime"

/-- The constructor of `unsignedType`. -/
def UnsignedType.prototype (w : Width) : UnsignedType where
  width := w
  count := 1
  minCount := 1
  displayCount := -1
  fixedValue := none
  format := .hex
  enumeration := none

/-- `Clone` of the built-in types. The constructor allocates for one number, before the numbers of
the original. -/
def BuiltinType.clone : BuiltinType → Alloc BuiltinType
  | unsigned t => do
      Alloc.ask 1 4
      Alloc.ask t.count 4
      return unsigned t
  | signed t => do
      Alloc.ask 1 4
      Alloc.ask t.count 4
      return signed t
  | string n minLength => do
      Alloc.ask n 1
      return string n minLength
  | float count displayCount => do
      Alloc.ask 1 4
      Alloc.ask count 4
      return float count displayCount
  | double count displayCount => do
      Alloc.ask 1 8
      Alloc.ask count 8
      return double count displayCount
  | length => return length
  | unixtime => return unixtime

/-- The object of a built-in type. What is in its arrays before `Fill` does not matter. -/
def BuiltinType.object (t : BuiltinType) : Builtin :=
  ⟨t, List.replicate t.numCells 0, List.length_replicate⟩

mutual

/-- `Clone` -/
def FieldType.clone : FieldType → Alloc FieldType
  | .builtin object => do
      let t ← object.type.clone
      return .builtin t.object
  | .struct name actions => do
      let actions ← cloneActions actions
      return .struct name actions

/-- The loop of `Struct::Clone`. -/
def cloneActions : List Action → Alloc (List Action)
  | [] => return []
  | .field name type _ :: as => do
      let type ← type.clone
      let as ← cloneActions as
      return .field name type 0 :: as
  | .transformationAction t :: as => do
      let as ← cloneActions as
      return .transformationAction t :: as
  | .annotationAction name :: as => do
      let as ← cloneActions as
      return .annotationAction name :: as

end

namespace Loader

/-- A clone of the prototype of a built-in type. -/
def clonePrototype (l : Loader) (sType : String) : Option (Alloc BuiltinType) :=
  match sType with
  | "u8" => some (BuiltinType.unsigned (.prototype .one)).clone
  | "u16" => some (BuiltinType.unsigned (.prototype .two)).clone
  | "u32" => some (BuiltinType.unsigned (.prototype .four)).clone
  | "s8" => some (BuiltinType.signed (.prototype .one)).clone
  | "s16" => some (BuiltinType.signed (.prototype .two)).clone
  | "s32" => some (BuiltinType.signed (.prototype .four)).clone
  -- an array of whatever length the prototype has, which `ParseNode` replaces
  | "string" => some do
      Alloc.ask l.stringLength 1
      return .string 0 0
  | "float" => some (BuiltinType.float 1 (-1)).clone
  | "double" => some (BuiltinType.double 1 (-1)).clone
  | "length" => some BuiltinType.length.clone
  | "unixtime" => some BuiltinType.unixtime.clone
  | _ => none

end Loader

end ProtocolDefinition

end OpenRom
