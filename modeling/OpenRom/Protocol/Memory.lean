import OpenRom.Protocol.Decode

/-!
# What the decoder touches

Every call of a `Fill` or a `Process` during `ProtocolDefinition::Process`, with the state that it
is handed and the place that `m_Data` points to: in the payload, or in what a transformation has
produced. A call reads bytes from there on and stores in its own value array; where it would read
what is not set, or leave its array, what comes out is not known. `decode` and `decodeAll` have no
result then.
-/

set_option autoImplicit false

namespace OpenRom

namespace ProtocolDefinition

/-! ## Calls -/

inductive Callee
  | fillPacket (p : Packet)
  | fillSubpacket (sp : Subpacket)
  | fill (type : FieldType)
  | process (a : Action)

/-- What `m_Data` points into, and how far from its start. -/
structure Place where
  buffer : List UInt8
  pos : Int

def Place.advance (p : Place) (r : Int) : Place := ⟨p.buffer, p.pos + r⟩

structure Call where
  place : Place
  state : DecodeState
  callee : Callee

/-- The bytes that are left. -/
def DecodeState.rest (s : DecodeState) : List UInt8 := s.data.take s.dataLeft.toNat

mutual

/-- The calls of `Type::Fill`, this one first. -/
def FieldType.calls (p : Place) (s : DecodeState) : FieldType → List Call
  | .builtin object => [⟨p, s, .fill (.builtin object)⟩]
  | .struct name actions => ⟨p, s, .fill (.struct name actions)⟩ :: callsOf p s actions

/-- The calls of the loop of `Struct::Fill`. What a transformation has produced is a new buffer. -/
def callsOf (p : Place) (s : DecodeState) : List Action → List Call
  | [] => []
  | .field name type offset :: as =>
      ⟨p, s, .process (.field name type offset)⟩ :: (type.calls p s ++
        if (type.fill s).1 ≤ 0 then []
        else callsOf (p.advance (type.fill s).1) (s.advance (type.fill s).1) as)
  | .transformationAction t :: as =>
      ⟨p, s, .process (.transformationAction t)⟩ ::
        match t.process s with
        | none => []
        | some s' => callsOf ⟨s'.rest, 0⟩ s' as
  | .annotationAction name :: as =>
      ⟨p, s, .process (.annotationAction name)⟩ :: callsOf p s as

end

/-- The calls of a turn of the loop over the subpackets. -/
def Subpacket.calls (p : Place) (s : DecodeState) (sp : Subpacket) : List Call :=
  ⟨p, s, .fillSubpacket sp⟩ :: callsOf p s sp.actions

/-- The calls of `Packet::Fill`. -/
def Packet.calls (place : Place) (s : DecodeState) (p : Packet) : List Call :=
  ⟨place, s, .fillPacket p⟩ :: (callsOf place s p.actions ++
    if p.headerSize s < 0 ∨ p.subpackets ≠ [] ∧ p.headerSize s ≠ p.numPacketBytes then []
    else
      (List.tried (Subpacket.attempt (s.advance p.numPacketBytes)) p.subpackets).flatMap
        (Subpacket.calls (place.advance p.numPacketBytes) (s.advance p.numPacketBytes)))

/-! ## What a call of `Fill` touches -/

/-- The bytes from `m_Data` on that are read, and the entries of the value array that are stored or
looked at. -/
structure Touched where
  bytes : Nat
  values : Nat
  deriving DecidableEq, Repr

def UnsignedType.touched (t : UnsignedType) (s : DecodeState) : Touched :=
  if t.width.bytes * t.minCount > s.dataLeft then ⟨0, 0⟩
  else
    let num := (min (s.dataLeft.tdiv t.width.bytes) t.count).toNat
    -- the first entry is compared, also when no value was stored
    ⟨t.width.bytes * num, if t.fixedValue.isSome then max num 1 else num⟩

/-- `memcpy` gets the length as a `size_t`. -/
def touchedString (length : Nat) (minLength : Int) (s : DecodeState) : Touched :=
  if s.dataLeft < minLength then ⟨0, 0⟩
  else ⟨sizeT (min (length : Int) s.dataLeft), sizeT (min (length : Int) s.dataLeft)⟩

def touchedNumber (size count : Nat) (s : DecodeState) : Touched :=
  if sizeT s.dataLeft < count * size then ⟨0, 0⟩ else ⟨count * size, count⟩

def BuiltinType.touched (s : DecodeState) : BuiltinType → Touched
  | unsigned t => t.touched s
  | signed t => t.touched s
  | string n minLength => touchedString n minLength s
  | float count _ => touchedNumber 4 count s
  | double count _ => touchedNumber 8 count s
  | length => touchedNumber 4 1 s
  | unixtime => touchedNumber 4 1 s

/-- What `Fill` asks for at least, which it computes as an `int`. -/
def BuiltinType.least : BuiltinType → Int
  | unsigned t => t.width.bytes * t.minCount
  | signed t => t.width.bytes * t.minCount
  | string _ minLength => minLength
  | _ => 0

/-! ## Calls that stay inside -/

/-- `Fill` reads what is set, stays in its value array, and computes an `int`. -/
structure Builtin.Inside (object : Builtin) (s : DecodeState) : Prop where
  bytes_le : (object.type.touched s).bytes ≤ s.data.length
  values_le : (object.type.touched s).values ≤ object.cells.length
  least_ge : -2 ^ 31 ≤ object.type.least
  least_lt : object.type.least < 2 ^ 31

/-- The call leaves no memory: a provider neither its source nor its destination, a `Fill` neither
the bytes that are set nor its value array. -/
def Call.Inside (c : Call) : Prop :=
  match c.callee with
  | .fill (.builtin object) => object.Inside c.state
  | .process (.transformationAction t) => t.applied c.state ≠ .fault
  | _ => True

instance (object : Builtin) (s : DecodeState) : Decidable (object.Inside s) :=
  decidable_of_iff ((object.type.touched s).bytes ≤ s.data.length ∧
      (object.type.touched s).values ≤ object.cells.length ∧
      -2 ^ 31 ≤ object.type.least ∧ object.type.least < 2 ^ 31)
    ⟨fun ⟨h₁, h₂, h₃, h₄⟩ => ⟨h₁, h₂, h₃, h₄⟩, fun ⟨h₁, h₂, h₃, h₄⟩ => ⟨h₁, h₂, h₃, h₄⟩⟩

instance : DecidablePred Call.Inside
  | ⟨_, s, .fill (.builtin object)⟩ => inferInstanceAs (Decidable (object.Inside s))
  | ⟨_, s, .process (.transformationAction t)⟩ =>
      inferInstanceAs (Decidable (t.applied s ≠ .fault))
  | ⟨_, _, .fill (.struct _ _)⟩ => inferInstanceAs (Decidable True)
  | ⟨_, _, .process (.field _ _ _)⟩ => inferInstanceAs (Decidable True)
  | ⟨_, _, .process (.annotationAction _)⟩ => inferInstanceAs (Decidable True)
  | ⟨_, _, .fillPacket _⟩ => inferInstanceAs (Decidable True)
  | ⟨_, _, .fillSubpacket _⟩ => inferInstanceAs (Decidable True)

end ProtocolDefinition

/-- The calls of `Process`. -/
def ProtocolDefinition.calls (d : ProtocolDefinition) (offset : UInt32) (data : List UInt8) :
    List ProtocolDefinition.Call :=
  (List.tried (ProtocolDefinition.Packet.attempt ⟨data, data.length, offset⟩) d.packets).flatMap
    (ProtocolDefinition.Packet.calls ⟨data, 0⟩ ⟨data, data.length, offset⟩)

/-- `Process` leaves no memory on this payload, and the lengths and sizes that it counts are
`int`s. -/
structure ProtocolDefinition.Inside (d : ProtocolDefinition) (offset : UInt32) (data : List UInt8) :
    Prop where
  length_lt : data.length < 2 ^ 31
  size_lt : ∀ p ∈ d.packets, p.numPacketBytes < 2 ^ 31
  calls : ∀ c ∈ d.calls offset data, c.Inside

instance (d : ProtocolDefinition) (offset : UInt32) (data : List UInt8) :
    Decidable (d.Inside offset data) :=
  decidable_of_iff (data.length < 2 ^ 31 ∧ (∀ p ∈ d.packets, p.numPacketBytes < 2 ^ 31) ∧
      ∀ c ∈ d.calls offset data, c.Inside)
    ⟨fun ⟨h₁, h₂, h₃⟩ => ⟨h₁, h₂, h₃⟩, fun ⟨h₁, h₂, h₃⟩ => ⟨h₁, h₂, h₃⟩⟩

namespace ProtocolDefinition

/-- `Process`, unless it leaves its memory. -/
def decode (d : ProtocolDefinition) (offset : UInt32) (data : List UInt8) :
    Option (Option Nat × ProtocolDefinition) :=
  if d.Inside offset data then some (d.process offset data) else none

/-- The definition after these payloads have been processed, each with what its decode state happens
to start with. -/
def run (d : ProtocolDefinition) : List (UInt32 × List UInt8) → ProtocolDefinition
  | [] => d
  | (offset, bs) :: payloads => (d.process offset bs).2.run payloads

/-- The same, unless `Process` leaves its memory on one of them. -/
def decodeAll (d : ProtocolDefinition) : List (UInt32 × List UInt8) → Option ProtocolDefinition
  | [] => some d
  | (offset, bs) :: payloads => do
      let r ← d.decode offset bs
      r.2.decodeAll payloads

/-- It leaves its memory on none of them. -/
def InsideAll (d : ProtocolDefinition) : List (UInt32 × List UInt8) → Prop
  | [] => True
  | (offset, bs) :: payloads => d.Inside offset bs ∧ (d.process offset bs).2.InsideAll payloads

instance decidableInsideAll : ∀ (d : ProtocolDefinition) (payloads : List (UInt32 × List UInt8)),
    Decidable (d.InsideAll payloads)
  | _, [] => inferInstanceAs (Decidable True)
  | d, (offset, bs) :: payloads =>
      have := decidableInsideAll (d.process offset bs).2 payloads
      inferInstanceAs (Decidable (d.Inside offset bs ∧ (d.process offset bs).2.InsideAll payloads))

theorem decode_eq_some_iff {d : ProtocolDefinition} {offset : UInt32} {data : List UInt8}
    {r : Option Nat × ProtocolDefinition} :
    d.decode offset data = some r ↔ d.Inside offset data ∧ d.process offset data = r := by
  unfold decode
  split
  next h => exact ⟨fun heq => ⟨h, Option.some.inj heq⟩, fun heq => congrArg some heq.2⟩
  next h => exact iff_of_false nofun fun heq => h heq.1

/-- Payloads that are all decoded leave what they leave when nothing is checked. -/
theorem decodeAll_eq_some_iff {d e : ProtocolDefinition} {payloads : List (UInt32 × List UInt8)} :
    d.decodeAll payloads = some e ↔ d.InsideAll payloads ∧ d.run payloads = e := by
  induction payloads generalizing d with
  | nil =>
      rw [decodeAll, run, InsideAll, true_and]
      exact ⟨Option.some.inj, congrArg some⟩
  | cons payload payloads ih =>
      obtain ⟨offset, bs⟩ := payload
      rw [decodeAll, run, InsideAll, Option.bind_eq_bind, Option.bind_eq_some_iff, and_assoc, ← ih]
      constructor
      · rintro ⟨r, hr, hrest⟩
        obtain ⟨hinside, rfl⟩ := decode_eq_some_iff.1 hr
        exact ⟨hinside, hrest⟩
      · rintro ⟨hinside, hrest⟩
        exact ⟨_, decode_eq_some_iff.2 ⟨hinside, rfl⟩, hrest⟩

end ProtocolDefinition

end OpenRom
