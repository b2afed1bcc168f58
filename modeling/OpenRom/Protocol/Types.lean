/-!
# Protocol definitions

A loaded `ProtocolDefinition`: packets and subpackets are lists of actions, most of them fields,
whose types are built-in ones or structs of actions again. The objects of the built-in types hold
the values that `Fill` stores, so a definition is also the state of the decoder.
-/

set_option autoImplicit false

namespace OpenRom

namespace ProtocolDefinition

/-! ## Built-in types -/

/-- The widths of the numeric types, u8 to u32 and s8 to s32. -/
inductive Width
  | one
  | two
  | four
  deriving DecidableEq, Repr

def Width.bytes : Width → Nat
  | one => 1
  | two => 2
  | four => 4

theorem Width.bytes_pos (w : Width) : 0 < w.bytes := by cases w <;> decide

inductive Format
  | hex
  | decimal
  deriving DecidableEq, Repr

/-- What the definition file says of an `unsignedType` or `signedType`. -/
structure UnsignedType where
  width : Width
  count : Nat
  minCount : Int
  displayCount : Int
  fixedValue : Option UInt32
  format : Format
  enumeration : Option String
  deriving DecidableEq, Repr

/-- `BuiltinType` and the classes derived from it, with what the definition file says of each. -/
inductive BuiltinType
  | unsigned (t : UnsignedType)
  | signed (t : UnsignedType)
  | string (length : Nat) (minLength : Int)
  | float (count : Nat) (displayCount : Int)
  | double (count : Nat) (displayCount : Int)
  | length
  | unixtime
  deriving DecidableEq, Repr

/-- The number of values that an object of the type has room for. -/
def BuiltinType.numCells : BuiltinType → Nat
  | unsigned t => t.count
  | signed t => t.count
  | string n _ => n
  | float count _ => count
  | double count _ => count
  | length => 1
  | unixtime => 1

/-- `unsignedType::GetConstantSize`. The product is that of the code when it can be counted in an
`int`. -/
def UnsignedType.constantSize (t : UnsignedType) : Int :=
  if (t.count : Int) ≠ t.minCount then 0 -- field size may vary
  else t.count * t.width.bytes

/-- `GetConstantSize` -/
def BuiltinType.constantSize : BuiltinType → Int
  | unsigned t => t.constantSize
  | signed t => t.constantSize
  | string n minLength => if minLength ≠ n then 0 else n -- not constant size
  | float count _ => count * 4
  | double count _ => count * 8
  | length => 4
  | unixtime => 4

/-- An object of a built-in type. The values are `m_Value`, the characters of `m_Data`, or the bit
patterns in `m_Number`. -/
structure Builtin where
  type : BuiltinType
  cells : List Nat
  length_cells : cells.length = type.numCells

theorem oneCell : ([0] : List Nat).length = 1 := rfl

theorem twoCells : ([0, 0] : List Nat).length = 2 := rfl

theorem fourCells : ([0, 0, 0, 0] : List Nat).length = 4 := rfl

/-! ## Actions -/

/-- What a call of a provider's `Apply` comes to: it returns `false`, or it has placed these bytes
in the destination and reports this size, or it has left the source or the destination. -/
inductive Applied
  | failed
  | placed (bytes : List UInt8) (size : Int)
  | fault
  deriving DecidableEq, Repr

/-- A transformation provider. `apply` has the source, its length, and the size of the destination
buffer. -/
structure Transformation where
  name : String
  estimateBufferSize : List UInt8 → Int → Int
  apply : List UInt8 → Int → Int → Applied

mutual

/-- The type of a field. A struct that can be loaded has a count of one. -/
inductive FieldType
  | builtin (object : Builtin)
  | struct (name : String) (actions : List Action)

/-- `XAction` and the classes derived from it. -/
inductive Action
  | field (name : String) (type : FieldType) (dataOffset : UInt32)
  | transformationAction (t : Transformation)
  | annotationAction (name : String)

end

/-- The action is a `Field`. -/
def Action.IsField : Action → Prop
  | field _ _ _ => True
  | transformationAction _ => False
  | annotationAction _ => False

instance : DecidablePred Action.IsField
  | .field _ _ _ => inferInstanceAs (Decidable True)
  | .transformationAction _ => inferInstanceAs (Decidable False)
  | .annotationAction _ => inferInstanceAs (Decidable False)

/-- Induction over the actions of a struct and of the structs in it. -/
@[elab_as_elim] theorem actionsRec {motive : List Action → Prop} (nil : motive [])
    (builtin : ∀ name object offset as, motive as →
      motive (.field name (.builtin object) offset :: as))
    (struct : ∀ name typeName inner offset as, motive inner → motive as →
      motive (.field name (.struct typeName inner) offset :: as))
    (transformationAction : ∀ t as, motive as → motive (.transformationAction t :: as))
    (annotationAction : ∀ name as, motive as → motive (.annotationAction name :: as)) :
    ∀ as : List Action, motive as
  | [] => nil
  | .field name (.builtin object) offset :: as =>
      builtin name object offset as
        (actionsRec nil builtin struct transformationAction annotationAction as)
  | .field name (.struct typeName inner) offset :: as =>
      struct name typeName inner offset as
        (actionsRec nil builtin struct transformationAction annotationAction inner)
        (actionsRec nil builtin struct transformationAction annotationAction as)
  | .transformationAction t :: as =>
      transformationAction t as
        (actionsRec nil builtin struct transformationAction annotationAction as)
  | .annotationAction name :: as =>
      annotationAction name as
        (actionsRec nil builtin struct transformationAction annotationAction as)

mutual

/-- `GetConstantSize` of a type. -/
def FieldType.constantSize : FieldType → Int
  | .builtin object => object.type.constantSize
  | .struct _ actions => sizeFrom 0 actions

/-- The loop of `Struct::GetConstantSize`. -/
def sizeFrom (size : Int) : List Action → Int
  | [] => size
  | .field _ type _ :: as =>
      if type.constantSize ≤ 0 then 0 else sizeFrom (size + type.constantSize) as
  | .transformationAction _ :: as => sizeFrom size as
  | .annotationAction _ :: as => sizeFrom size as

end

/-! ## Layouts -/

/-- The object before anything is stored. -/
def Builtin.layout (b : Builtin) : Builtin :=
  ⟨b.type, List.replicate b.type.numCells 0, List.length_replicate⟩

mutual

/-- What the definition file says of a type, without stored values. -/
def FieldType.layout : FieldType → FieldType
  | .builtin object => .builtin object.layout
  | .struct name actions => .struct name (layoutOf actions)

def layoutOf : List Action → List Action
  | [] => []
  | .field name type _ :: as => .field name type.layout 0 :: layoutOf as
  | .transformationAction t :: as => .transformationAction t :: layoutOf as
  | .annotationAction name :: as => .annotationAction name :: layoutOf as

end

@[simp] theorem layoutOf_field (name : String) (type : FieldType) (offset : UInt32)
    (as : List Action) :
    layoutOf (.field name type offset :: as) = .field name type.layout 0 :: layoutOf as := rfl

@[simp] theorem layoutOf_transformationAction (t : Transformation) (as : List Action) :
    layoutOf (.transformationAction t :: as) = .transformationAction t :: layoutOf as := rfl

@[simp] theorem layoutOf_annotationAction (name : String) (as : List Action) :
    layoutOf (.annotationAction name :: as) = .annotationAction name :: layoutOf as := rfl

@[simp] theorem FieldType.layout_struct (name : String) (actions : List Action) :
    (struct name actions).layout = .struct name (layoutOf actions) := rfl

theorem sizeFrom_field (size : Int) (name : String) (type : FieldType) (offset : UInt32)
    (as : List Action) :
    sizeFrom size (.field name type offset :: as) =
      if type.constantSize ≤ 0 then 0 else sizeFrom (size + type.constantSize) as := rfl

@[simp] theorem sizeFrom_layoutOf (size : Int) (as : List Action) :
    sizeFrom size (layoutOf as) = sizeFrom size as := by
  induction as using actionsRec generalizing size with
  | nil => rfl
  | builtin name object offset as ih =>
      have htype : (FieldType.builtin object).layout.constantSize =
        (FieldType.builtin object).constantSize := rfl
      rw [layoutOf_field, sizeFrom_field, sizeFrom_field, htype, ih]
  | struct name typeName inner offset as ihInner ih =>
      have htype : (FieldType.struct typeName inner).layout.constantSize =
        (FieldType.struct typeName inner).constantSize := ihInner 0
      rw [layoutOf_field, sizeFrom_field, sizeFrom_field, htype, ih]
  | transformationAction t as ih => exact ih size
  | annotationAction name as ih => exact ih size

theorem isField_of_layoutOf {as bs : List Action} (h : layoutOf as = layoutOf bs)
    (hbs : ∀ b ∈ bs, b.IsField) : ∀ a ∈ as, a.IsField := by
  induction as generalizing bs with
  | nil => exact nofun
  | cons a as ih =>
      cases bs with
      | nil => cases a <;> cases h
      | cons b bs =>
          have hb := hbs b List.mem_cons_self
          have hhead : a.IsField ∧ layoutOf as = layoutOf bs := by
            -- actions of different kinds have different layouts
            cases a <;> cases b <;> first
              | exact ⟨trivial, (List.cons.inj h).2⟩
              | exact absurd hb id
              | cases (List.cons.inj h).1
          intro c hc
          rcases List.mem_cons.1 hc with rfl | hc
          · exact hhead.1
          · exact ih hhead.2 (fun b hb => hbs b (List.mem_cons_of_mem _ hb)) c hc

/-! ## Packets -/

structure Subpacket where
  name : String
  actions : List Action

/-- A packet as `Packet::ParseNode` leaves it: all its own actions are fields, it knows the size of
them, and with subpackets that is not zero. -/
structure Packet where
  name : String
  actions : List Action
  subpackets : List Subpacket
  numPacketBytes : Int
  lastSubpacket : Option Nat
  isField : ∀ a ∈ actions, a.IsField
  numPacketBytes_eq : numPacketBytes = sizeFrom 0 actions
  numPacketBytes_ne : subpackets ≠ [] → numPacketBytes ≠ 0

end ProtocolDefinition

/-- The packets of a loaded definition. -/
structure ProtocolDefinition where
  packets : List ProtocolDefinition.Packet

end OpenRom
