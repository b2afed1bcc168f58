import Mathlib.Data.Option.Basic
import OpenRom.Protocol.Document

/-!
# Loading a definition

`ProtocolDefinition::Load` and what it calls. A function whose result is nothing has returned
`false`; what it leaves behind then is not kept, as nothing is parsed after that. An allocation that
fails ends everything up to the handler in `Load` (`load`).
-/

set_option autoImplicit false

namespace OpenRom

namespace ProtocolDefinition

open Allocation

/-! ## Attributes of built-in types -/

/-- A type and whether all attributes so far were in order (`bOK`). -/
abbrev Checked (τ : Type) := τ × Bool

/-- The type, when all was in order. -/
def Checked.get {τ : Type} (c : Checked τ) : Option τ := if c.2 then some c.1 else none

namespace UnsignedType

variable (l : Loader) (n : XmlNode)

def parseFixedValue (t : UnsignedType) : Checked UnsignedType :=
  match n.getProp "fixed_value" with
  | none => (t, true)
  | some sFixedValue =>
      let (iFixVal, ok) := l.resolveStringToNumber sFixedValue
      ({ t with fixedValue := some (toUInt32 iFixVal) }, ok)

/-- The minimum follows the count when the two were equal. -/
def parseCount (c : Checked UnsignedType) : Alloc (Checked UnsignedType) :=
  match n.getProp "count" with
  | none => return c
  | some sCount =>
      let (iVal, ok) := l.resolveStringToNumber sCount
      if c.2 ∧ ok then do
        Alloc.ask (toInt iVal) 4
        let minCount := if c.1.count = c.1.minCount then toInt iVal else c.1.minCount
        return ({ c.1 with count := (toInt iVal).toNat, minCount := minCount }, true)
      else return (c.1, false)

def parseMinCount (c : Checked UnsignedType) : Checked UnsignedType :=
  match n.getProp "min_count" with
  | none => c
  | some sMinCount =>
      let (iVal, ok) := l.resolveStringToNumber sMinCount
      ({ c.1 with minCount := toInt iVal }, c.2 && ok)

def parseDisplayCount (c : Checked UnsignedType) : Checked UnsignedType :=
  match n.getProp "display" with
  | none => c
  | some sDisplayCount =>
      let (iVal, ok) := l.resolveStringToNumber sDisplayCount
      ({ c.1 with displayCount := toInt iVal }, c.2 && ok)

/-- The `else` belongs to the second comparison only. -/
def parseFormat (c : Checked UnsignedType) : Checked UnsignedType :=
  match n.getProp "format" with
  | none => c
  | some sFormat =>
      let c := if sFormat = "hex" then ({ c.1 with format := .hex }, c.2) else c
      if sFormat = "decimal" then ({ c.1 with format := .decimal }, c.2) else (c.1, false)

def parseEnumeration (c : Checked UnsignedType) : Checked UnsignedType :=
  match n.getProp "enumeration" with
  | none => c
  | some sEnumeration =>
      let pEnum := l.lookupEnumeration sEnumeration
      ({ c.1 with enumeration := pEnum.map (·.name) }, c.2 && pEnum.isSome)

/-- The annotation is not used in any way that matters here. -/
def parseAnnotationProp (c : Checked UnsignedType) : Checked UnsignedType :=
  match n.getProp "annotation" with
  | none => c
  | some sAnnotation => (c.1, c.2 && (l.lookupAnnotation sAnnotation).isSome)

/-- `unsignedType::ParseNode` -/
def parseNode (t : UnsignedType) : Alloc (Option UnsignedType) := do
  let c ← parseCount l n (parseFixedValue l n t)
  let c := parseDisplayCount l n (parseMinCount l n c)
  let c := parseFormat n c
  let c := parseAnnotationProp l n (parseEnumeration l n c)
  return c.get

end UnsignedType

section Attributes

variable (l : Loader) (n : XmlNode)

/-- `stringType::ParseNode`. The array is allocated even when the length is no number. -/
def parseString : Alloc (Option BuiltinType) :=
  match n.getProp "length" with
  | none => return none
  | some sLength => do
      let (iVal, ok) := l.resolveStringToNumber sLength
      Alloc.ask (toInt iVal) 1
      match n.getProp "min_length" with
      | none => return Checked.get (.string (toInt iVal).toNat (toInt iVal), ok)
      | some sMinLength =>
          let (iMin, okMin) := l.resolveStringToNumber sMinLength
          return Checked.get (.string (toInt iVal).toNat (toInt iMin), ok && okMin)

/-- `ParseNode` of `floatType` and `doubleType`, whose numbers have a size: the count and the
display count. -/
def parseNumbers (size count : Nat) (displayCount : Int) : Alloc (Option (Nat × Int)) := do
  let (count, ok) ←
    match n.getProp "count" with
    | none => pure (count, true)
    | some sCount =>
        let (iVal, ok) := l.resolveStringToNumber sCount
        if ok then do
          Alloc.ask (toInt iVal) size
          pure ((toInt iVal).toNat, true)
        else pure (count, false)
  match n.getProp "display" with
  | none => return Checked.get ((count, displayCount), ok)
  | some sDisplayCount =>
      let (iVal, okDisplay) := l.resolveStringToNumber sDisplayCount
      return Checked.get ((count, toInt iVal), ok && okDisplay)

/-- `ParseNode` of the built-in types. -/
def BuiltinType.parseNode : BuiltinType → Alloc (Option BuiltinType)
  | unsigned t => do
      let t ← t.parseNode l n
      return t.map unsigned
  | signed t => do
      let t ← t.parseNode l n
      return t.map signed
  | string _ _ => parseString l n
  | float count displayCount => do
      let c ← parseNumbers l n 4 count displayCount
      return c.map fun c => float c.1 c.2
  | double count displayCount => do
      let c ← parseNumbers l n 8 count displayCount
      return c.map fun c => double c.1 c.2
  -- nothing to parse
  | length => return some length
  | unixtime => return some unixtime

end Attributes

/-! ## Structs -/

/-- What a `Struct`, or a class derived from it, has got from its children so far. -/
structure Body where
  actions : List Action
  subpackets : List Subpacket

def Body.addAction (b : Body) (a : Action) : Body := { b with actions := b.actions ++ [a] }

/-- The struct in `m_Types` that is being parsed, and what its actions are, by those of the struct
in it whose children are being parsed. A clone of it made now has them. -/
structure Open where
  name : String
  actions : List Action → List Action

namespace Loader

variable (l : Loader)

/-- `LookupType`, and a clone of the type that it finds. -/
def cloneType (self : Option StructType) (sType : String) : Option (Alloc FieldType) :=
  match l.clonePrototype sType with
  | some clone => some do
      let t ← clone
      return .builtin t.object
  | none => (lookupType (l.structs ++ self.toList) sType).map fun t =>
      (FieldType.struct t.name t.actions).clone

/-- `Struct::ParseExtraNode`. What it reads of an unknown node makes no difference, as it returns
`false` in any case. -/
def parseExtraNode (sName : String) (n : XmlNode) (b : Body) : Option Body :=
  if n.tag = some "transformation" then
    (l.lookupTransformation sName).map fun t => b.addAction (.transformationAction t)
  else if n.tag = some "annotation" then
    (l.lookupAnnotation sName).map fun name => b.addAction (.annotationAction name)
  else none

/-- The attribute of a `filter` node: whether its children count for the version. -/
def parseFilterVersion (n : XmlNode) : Option Bool :=
  match n.getProp "version" with
  | none => none
  | some sVersion =>
      let (version, rest) := strtol 10 sVersion.toList
      if rest.isEmpty then some (l.version < 0 ∨ l.version ≥ toInt version) else none

mutual

/-- `ParseChildNode`, of a packet or another struct. -/
def parseChildNode (packet : Bool) (self : Option Open) (b : Body) : XmlNode → Alloc (Option Body)
  | .other => return some b
  | .element tag attributes children =>
      let n : XmlNode := .element tag attributes children
      match n.getProp "name" with
      | none => return none
      | some sName =>
          if tag = "field" then
            match n.getProp "type" with
            | none => return none
            | some sType =>
                match l.cloneType (self.map fun s => ⟨s.name, s.actions b.actions⟩) sType with
                | none => return none
                | some clone => do
                    match ← clone with
                    | .builtin object => do
                        let some t ← object.type.parseNode l n | return none
                        return some (b.addAction (.field sName (.builtin t.object) 0))
                    | .struct sStruct actions => do
                        -- the field is in the struct before its own children are parsed
                        let hook (inner : List Action) : Action :=
                          .field sName (.struct sStruct inner) 0
                        let inside : Option Open := self.map fun s =>
                          ⟨s.name, fun inner => s.actions (b.actions ++ [hook inner])⟩
                        let some inner ← parseNode false inside ⟨actions, []⟩ children | return none
                        return some (b.addAction (hook inner.actions))
          else if packet then
            -- `Packet::ParseExtraNode`
            if tag = "subpacket" then do
              let some inner ← parseNode false none ⟨[], []⟩ children | return none
              return some { b with subpackets := b.subpackets ++ [⟨sName, inner.actions⟩] }
            else return none
          else return l.parseExtraNode sName n b

/-- `Struct::ParseNode` -/
def parseNode (packet : Bool) (self : Option Open) (b : Body) :
    List XmlNode → Alloc (Option Body)
  | [] => return some b
  | n :: ns => do
      let some b ←
        (if n.tag = some "filter" then parseFilter packet self b n
        else parseChildNode packet self b n)
        | return none
      parseNode packet self b ns

/-- A `filter` node in the loop of `Struct::ParseNode`. -/
def parseFilter (packet : Bool) (self : Option Open) (b : Body) : XmlNode → Alloc (Option Body)
  | .other => return some b
  | .element tag attributes children =>
      match l.parseFilterVersion (.element tag attributes children) with
      | none => return none
      | some false => return some b
      | some true => parseFiltered packet self b children

/-- The children of such a node. -/
def parseFiltered (packet : Bool) (self : Option Open) (b : Body) :
    List XmlNode → Alloc (Option Body)
  | [] => return some b
  | n :: ns => do
      let some b ← parseChildNode packet self b n | return none
      parseFiltered packet self b ns

end

/-! ## Elements of the document -/

/-- The loop of `ParseEnum`; `Add` refuses a key that is there already. -/
def parseEnumValues (entries : List (Int × String)) : List XmlNode → Option (List (Int × String))
  | [] => some entries
  | n :: ns =>
      if ¬ n.isElement then parseEnumValues entries ns
      else if n.tag ≠ some "value" then none
      else
        match n.getProp "num", n.getProp "name" with
        | some sNum, some sName =>
            let (iNum, rest) := strtol 0 sNum.toList
            if rest.isEmpty ∧ (entries.lookup (toInt iNum)).isNone then
              parseEnumValues (entries ++ [(toInt iNum, sName)]) ns
            else none
        | _, _ => none

/-- `ParseEnum` -/
def parseEnum (n : XmlNode) : Option Loader := do
  let sName ← n.getProp "name"
  let entries ← parseEnumValues [] n.children
  return { l with enums := l.enums ++ [⟨sName, entries⟩] }

/-- `ParseDefinition` -/
def parseDefinition (n : XmlNode) : Option Loader := do
  let sName ← n.getProp "name"
  guard (l.lookupDefinition sName).isNone
  let sValue ← n.getProp "value"
  return { l with definitions := l.definitions ++ [(sName, sValue)] }

/-- `ParseStruct` -/
def parseStruct (n : XmlNode) : Alloc (Option Loader) :=
  match n.getProp "name" with
  | none => return none
  | some sName => do
      let some b ← l.parseNode false (some ⟨sName, id⟩) ⟨[], []⟩ n.children | return none
      return some { l with structs := l.structs ++ [⟨sName, b.actions⟩] }

/-- The attribute of a packet. -/
def parseSource (n : XmlNode) : Option Source :=
  match n.getProp "source" with
  | some "server" => some .server
  | some "client" => some .client
  | _ => none

/-- What `Packet::ParseNode` makes of the children of the packet. -/
def finishPacket (sName : String) (n : XmlNode) (b : Body) : Option LoadedPacket := do
  let source ← parseSource n
  let numPacketBytes := sizeFrom 0 b.actions
  guard (b.subpackets.isEmpty ∨ numPacketBytes ≠ 0)
  return ⟨sName, source, b.actions, b.subpackets, numPacketBytes⟩

/-- `ParsePacket` -/
def parsePacket (n : XmlNode) : Alloc (Option Loader) :=
  match n.getProp "name" with
  | none => return none
  | some sName => do
      let some b ← l.parseNode true none ⟨[], []⟩ n.children | return none
      return (finishPacket sName n b).map fun p => { l with packets := l.packets ++ [p] }

/-- The body of the loop of `Load`, for an element. -/
def parseElement (n : XmlNode) : Alloc (Option Loader) :=
  match n.tag with
  | some "enum" => return l.parseEnum n
  | some "struct" => l.parseStruct n
  | some "packet" => l.parsePacket n
  | some "define" => return l.parseDefinition n
  | _ => return none

/-- The loop of `Load`. -/
def parseElements (l : Loader) : List XmlNode → Alloc (Option Loader)
  | [] => return some l
  | n :: ns =>
      if n.isElement then do
        let some l ← l.parseElement n | return none
        parseElements l ns
      else parseElements l ns

/-- `Load` up to its handler, where `xmlReadFile` finds these nodes below the root of the document,
or no document. -/
def load (iVersion : Int) (pDoc : Option (List XmlNode)) : Alloc (Option Loader) :=
  match pDoc with
  | none => return none
  | some nodes => { l with version := iVersion }.parseElements nodes

/-- What `Load` returns, when these arrays can be allocated. -/
def loads (grants : Request → Bool) (iVersion : Int) (pDoc : Option (List XmlNode)) : Bool :=
  match (l.load iVersion pDoc).run grants with
  | some result => result.isSome
  -- the handler changes nothing, and no element has been rejected
  | none => true

end Loader

end ProtocolDefinition

end OpenRom
