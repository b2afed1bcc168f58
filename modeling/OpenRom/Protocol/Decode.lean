import OpenRom.Library.FirstMatch
import OpenRom.Library.LittleEndian
import OpenRom.Library.Overwrite
import OpenRom.Protocol.Types

/-!
# Decoding

`Fill` of every type, `Process` of every action, and `ProtocolDefinition::Process`. Each returns
what the source returns, together with the object as the call leaves it: values that a call does not
store are those of earlier calls. What happens when a call reads what is not set, or leaves its
memory, is not modelled: whether one does is a question about the calls (`Call.Inside`).
-/

set_option autoImplicit false

namespace OpenRom

namespace ProtocolDefinition

/-- `data` is what the buffer holds from `m_Data` on. -/
structure DecodeState where
  data : List UInt8
  dataLeft : Int
  dataOffset : UInt32

/-- The state after `r` bytes. -/
def DecodeState.advance (s : DecodeState) (r : Int) : DecodeState :=
  ⟨s.data.drop r.toNat, s.dataLeft - r, s.dataOffset + UInt32.ofInt r⟩

/-- An `int` as an operand of a comparison with a `size_t`. -/
def sizeT (n : Int) : Nat := (n % 2 ^ 64).toNat

/-- An `int` as an operand of a comparison with an `uint32_t`. -/
def uint32 (n : Int) : Nat := (n % 2 ^ 32).toNat

/-! ## Built-in types -/

/-- The first `n` little-endian numbers of a width. -/
def readCells (width : Nat) : Nat → List UInt8 → List Nat
  | 0, _ => []
  | n + 1, data => LittleEndian.decode (data.take width) :: readCells width n (data.drop width)

@[simp] theorem length_readCells (width n : Nat) (data : List UInt8) :
    (readCells width n data).length = n := by
  induction n generalizing data with
  | zero => rfl
  | succ n ih => rw [readCells, List.length_cons, ih]

/-- `unsignedType::Fill`. The products are those of the code when they are in the range of an
`int`. -/
def UnsignedType.fill (t : UnsignedType) (value : List Nat) (s : DecodeState) : Int × List Nat :=
  if t.width.bytes * t.minCount > s.dataLeft then (0, value) -- too little data
  else
    let num := min (s.dataLeft.tdiv t.width.bytes) t.count
    let value := List.overwrite (readCells t.width.bytes num.toNat s.data) value
    match t.fixedValue with
    | none => (t.width.bytes * num, value)
    | some v =>
        if value.head? ≠ some v.toNat then (-1, value) else (t.width.bytes * num, value)

/-- `stringType::Fill` -/
def fillString (length : Nat) (minLength : Int) (data : List Nat) (s : DecodeState) :
    Int × List Nat :=
  if s.dataLeft < minLength then (0, data) -- not enough data
  else
    let iLength := min (length : Int) s.dataLeft
    (iLength, List.overwrite (readCells 1 iLength.toNat s.data) data)

/-- `floatType::Fill` and `doubleType::Fill`, for numbers of so many bytes. -/
def fillNumber (size count : Nat) (number : List Nat) (s : DecodeState) : Int × List Nat :=
  if sizeT s.dataLeft < count * size then (0, number)
  else ((count * size : Nat), List.overwrite (readCells size count s.data) number)

/-- `lengthType::Fill` -/
def fillLength (value : List Nat) (s : DecodeState) : Int × List Nat :=
  if sizeT s.dataLeft < 4 then (0, value)
  else
    -- the field counts itself
    let v := (LittleEndian.decode (s.data.take 4) + 4) % 2 ^ 32
    (if v ≠ uint32 s.dataLeft then 0 else 4, [v])

/-- `unixtimeType::Fill` -/
def fillUnixtime (value : List Nat) (s : DecodeState) : Int × List Nat :=
  if sizeT s.dataLeft < 4 then (0, value) else (4, [LittleEndian.decode (s.data.take 4)])

/-- `Fill` of the built-in types, on the values that the object has. -/
def BuiltinType.fill (cells : List Nat) (s : DecodeState) : BuiltinType → Int × List Nat
  | unsigned t => t.fill cells s
  | signed t => t.fill cells s
  | string n minLength => fillString n minLength cells s
  | float count _ => fillNumber 4 count cells s
  | double count _ => fillNumber 8 count cells s
  | length => fillLength cells s
  | unixtime => fillUnixtime cells s

theorem length_overwrite_readCells {width n : Nat} {data : List UInt8} {cells : List Nat}
    (h : n ≤ cells.length) :
    (List.overwrite (readCells width n data) cells).length = cells.length := by
  apply List.length_overwrite
  rwa [length_readCells]

theorem UnsignedType.length_fill {t : UnsignedType} {value : List Nat}
    (h : value.length = t.count) (s : DecodeState) : (t.fill value s).2.length = t.count := by
  unfold fill
  split
  · exact h
  · -- no more values are read than there is room for
    have hnum : (min (s.dataLeft.tdiv t.width.bytes) t.count).toNat ≤ value.length := by omega
    have hlen : (List.overwrite (readCells t.width.bytes
        (min (s.dataLeft.tdiv t.width.bytes) t.count).toNat s.data) value).length = t.count :=
      (length_overwrite_readCells hnum).trans h
    dsimp only
    split
    · exact hlen
    · split <;> exact hlen

theorem length_fillString {length : Nat} {minLength : Int} {data : List Nat}
    (h : data.length = length) (s : DecodeState) :
    (fillString length minLength data s).2.length = length := by
  unfold fillString
  split
  · exact h
  · exact (length_overwrite_readCells (by omega)).trans h

theorem length_fillNumber {size count : Nat} {number : List Nat} (h : number.length = count)
    (s : DecodeState) : (fillNumber size count number s).2.length = count := by
  unfold fillNumber
  split
  · exact h
  · exact (length_overwrite_readCells (Nat.le_of_eq h.symm)).trans h

theorem length_fillLength {value : List Nat} (h : value.length = 1) (s : DecodeState) :
    (fillLength value s).2.length = 1 := by
  unfold fillLength
  split
  · exact h
  · rfl

theorem length_fillUnixtime {value : List Nat} (h : value.length = 1) (s : DecodeState) :
    (fillUnixtime value s).2.length = 1 := by
  unfold fillUnixtime
  split
  · exact h
  · rfl

theorem BuiltinType.length_fill {cells : List Nat} (s : DecodeState) :
    ∀ {type : BuiltinType}, cells.length = type.numCells →
      (type.fill cells s).2.length = type.numCells
  | unsigned _, h => UnsignedType.length_fill h s
  | signed _, h => UnsignedType.length_fill h s
  | string _ _, h => length_fillString h s
  | float _ _, h => length_fillNumber h s
  | double _ _, h => length_fillNumber h s
  | length, h => length_fillLength h s
  | unixtime, h => length_fillUnixtime h s

/-- `Fill` of an object of a built-in type. -/
def Builtin.fill (b : Builtin) (s : DecodeState) : Int × Builtin :=
  ((b.type.fill b.cells s).1,
    ⟨b.type, (b.type.fill b.cells s).2, BuiltinType.length_fill s b.length_cells⟩)

/-! ## Actions -/

/-- What `TransformationAction::Process` makes of the provider, which does not see the buffer when
its size cannot be estimated. -/
def Transformation.applied (t : Transformation) (s : DecodeState) : Applied :=
  let bufferSize := t.estimateBufferSize s.data s.dataLeft
  if bufferSize ≤ 0 then .failed else t.apply s.data s.dataLeft bufferSize

/-- The state behind `TransformationAction::Process`: the new buffer is not set where the provider
has placed nothing. There is no such state either when the provider has left its memory. -/
def Transformation.process (t : Transformation) (s : DecodeState) : Option DecodeState :=
  match t.applied s with
  | .failed => none
  | .placed bytes size => some ⟨bytes, size, 0⟩
  | .fault => none

mutual

/-- `Type::Fill` -/
def FieldType.fill (s : DecodeState) : FieldType → Int × FieldType
  | .builtin object => ((object.fill s).1, .builtin (object.fill s).2)
  | .struct name actions =>
      let r := processActions s actions
      (s.dataLeft - r.1.dataLeft, .struct name r.2)

/-- `XAction::Process`. An annotation is for its provider only. -/
def Action.process (s : DecodeState) : Action → Bool × DecodeState × Action
  | .field name type _ =>
      let r := type.fill s
      if r.1 ≤ 0 then (false, s, .field name r.2 s.dataOffset)
      else (true, s.advance r.1, .field name r.2 s.dataOffset)
  | .transformationAction t =>
      match t.process s with
      | none => (false, s, .transformationAction t)
      | some s' => (true, s', .transformationAction t)
  | .annotationAction name => (true, s, .annotationAction name)

/-- The loop of `Struct::Fill`. -/
def processActions (s : DecodeState) : List Action → DecodeState × List Action
  | [] => (s, [])
  | a :: as =>
      match a.process s with
      | (true, s', a') => ((processActions s' as).1, a' :: (processActions s' as).2)
      | (false, s', a') => (s', a' :: as)

end

/-- A transformation that fails leaves the state as it is. -/
theorem Action.state_of_false {t : Transformation} {s : DecodeState}
    (h : ((transformationAction t).process s).1 = false) :
    ((transformationAction t).process s).2.1 = s := by
  rw [process] at h ⊢
  cases hprocess : t.process s with
  | none => rfl
  | some s' =>
      rw [hprocess] at h
      cases h

theorem processActions_of_true {s s' : DecodeState} {a a' : Action}
    (h : a.process s = (true, s', a')) (as : List Action) :
    processActions s (a :: as) =
      ((processActions s' as).1, a' :: (processActions s' as).2) := by
  rw [processActions, h]

theorem processActions_of_false {s s' : DecodeState} {a a' : Action}
    (h : a.process s = (false, s', a')) (as : List Action) :
    processActions s (a :: as) = (s', a' :: as) := by
  rw [processActions, h]

theorem FieldType.fill_struct (s : DecodeState) (name : String) (actions : List Action) :
    (struct name actions).fill s =
      (s.dataLeft - (processActions s actions).1.dataLeft,
        .struct name (processActions s actions).2) := rfl

theorem processActions_field (s : DecodeState) (name : String) (type : FieldType)
    (offset : UInt32) (as : List Action) :
    processActions s (.field name type offset :: as) =
      if (type.fill s).1 ≤ 0 then (s, .field name (type.fill s).2 s.dataOffset :: as)
      else
        ((processActions (s.advance (type.fill s).1) as).1,
          .field name (type.fill s).2 s.dataOffset ::
            (processActions (s.advance (type.fill s).1) as).2) := by
  by_cases h : (type.fill s).1 ≤ 0
  · rw [if_pos h]
    apply processActions_of_false
    rw [Action.process]
    exact if_pos h
  · rw [if_neg h]
    apply processActions_of_true
    rw [Action.process]
    exact if_neg h

theorem processActions_transformationAction (s : DecodeState) (t : Transformation)
    (as : List Action) :
    processActions s (.transformationAction t :: as) =
      match t.process s with
      | none => (s, .transformationAction t :: as)
      | some s' =>
          ((processActions s' as).1, .transformationAction t :: (processActions s' as).2) := by
  cases h : t.process s with
  | none =>
      apply processActions_of_false
      rw [Action.process, h]
  | some s' =>
      apply processActions_of_true
      rw [Action.process, h]

theorem processActions_annotationAction (s : DecodeState) (name : String) (as : List Action) :
    processActions s (.annotationAction name :: as) =
      ((processActions s as).1, .annotationAction name :: (processActions s as).2) := rfl

/-- Decoding stores values and changes nothing else. -/
theorem layoutOf_processActions (s : DecodeState) (as : List Action) :
    layoutOf (processActions s as).2 = layoutOf as := by
  -- a field, of a built-in type or a struct, from what is known of its type
  have hfield : ∀ (s : DecodeState) (name : String) (type : FieldType) (offset : UInt32)
      (as : List Action), (type.fill s).2.layout = type.layout →
      (∀ s, layoutOf (processActions s as).2 = layoutOf as) →
        layoutOf (processActions s (.field name type offset :: as)).2 =
          layoutOf (.field name type offset :: as) := by
    intro s name type offset as htype ih
    rw [processActions_field]
    split
    · rw [layoutOf_field, layoutOf_field, htype]
    · rw [layoutOf_field, layoutOf_field, htype, ih]
  induction as using actionsRec generalizing s with
  | nil => rfl
  | builtin name object offset as ih => exact hfield s name _ offset as rfl ih
  | struct name typeName inner offset as ihInner ih =>
      apply hfield s name _ offset as _ ih
      rw [FieldType.fill_struct, FieldType.layout_struct, FieldType.layout_struct, ihInner]
  | transformationAction t as ih =>
      rw [processActions_transformationAction]
      cases t.process s with
      | none => rfl
      | some s' =>
          rw [layoutOf_transformationAction, layoutOf_transformationAction, ih]
  | annotationAction name as ih =>
      rw [processActions_annotationAction, layoutOf_annotationAction, layoutOf_annotationAction, ih]

/-! ## Packets -/

/-- One turn of the loop over the subpackets: a subpacket matches when it takes all that is left. -/
def Subpacket.attempt (s : DecodeState) (sp : Subpacket) : Bool × Subpacket :=
  let r := processActions s sp.actions
  (decide (s.dataLeft - r.1.dataLeft = s.dataLeft), ⟨sp.name, r.2⟩)

/-- The packet with other stored values. -/
def Packet.store (p : Packet) (actions : List Action) (subpackets : List Subpacket)
    (lastSubpacket : Option Nat) (hactions : layoutOf actions = layoutOf p.actions)
    (hsubpackets : subpackets.length = p.subpackets.length) : Packet where
  name := p.name
  actions := actions
  subpackets := subpackets
  numPacketBytes := p.numPacketBytes
  lastSubpacket := lastSubpacket
  isField := isField_of_layoutOf hactions p.isField
  numPacketBytes_eq := by
    rw [p.numPacketBytes_eq, ← sizeFrom_layoutOf 0 p.actions, ← hactions, sizeFrom_layoutOf]
  numPacketBytes_ne h := by
    apply p.numPacketBytes_ne
    rintro hnil
    rw [hnil] at hsubpackets
    exact h (List.length_eq_zero_iff.1 hsubpackets)

/-- `Packet::Fill` -/
def Packet.fill (s : DecodeState) (p : Packet) : Int × Packet :=
  let r := processActions s p.actions
  let num := s.dataLeft - r.1.dataLeft
  let rejected := p.store r.2 p.subpackets none (layoutOf_processActions s p.actions) rfl
  if num < 0 then (0, rejected)
  -- with subpackets the header has to check out
  else if p.subpackets ≠ [] ∧ num ≠ p.numPacketBytes then (0, rejected)
  else
    let subState := s.advance p.numPacketBytes
    let tried := List.firstMatch (Subpacket.attempt subState) p.subpackets
    (num + if tried.1.isSome then subState.dataLeft else 0,
      p.store r.2 tried.2 tried.1 (layoutOf_processActions s p.actions)
        (List.length_firstMatch p.subpackets))

/-- What the fields of the packet itself take. -/
def Packet.headerSize (s : DecodeState) (p : Packet) : Int :=
  s.dataLeft - (processActions s p.actions).1.dataLeft

/-- The loop over the subpackets. -/
def Packet.trySubpackets (s : DecodeState) (p : Packet) : Option Nat × List Subpacket :=
  List.firstMatch (Subpacket.attempt (s.advance p.numPacketBytes)) p.subpackets

/-- The size that the subpacket adds. -/
def Packet.subpacketSize (s : DecodeState) (p : Packet) : Int :=
  if (p.trySubpackets s).1.isSome then s.dataLeft - p.numPacketBytes else 0

theorem Packet.fill_of_rejected {s : DecodeState} {p : Packet}
    (h : p.headerSize s < 0 ∨ p.subpackets ≠ [] ∧ p.headerSize s ≠ p.numPacketBytes) :
    p.fill s = (0, p.store (processActions s p.actions).2 p.subpackets none
      (layoutOf_processActions s p.actions) rfl) := by
  unfold fill
  rcases h with hneg | hsize
  · exact if_pos hneg
  · by_cases hneg : p.headerSize s < 0
    · exact if_pos hneg
    · exact (if_neg hneg).trans (if_pos hsize)

theorem Packet.fill_of_checked {s : DecodeState} {p : Packet} (hneg : ¬ p.headerSize s < 0)
    (hsize : ¬ (p.subpackets ≠ [] ∧ p.headerSize s ≠ p.numPacketBytes)) :
    p.fill s = (p.headerSize s + p.subpacketSize s,
      p.store (processActions s p.actions).2 (p.trySubpackets s).2 (p.trySubpackets s).1
        (layoutOf_processActions s p.actions) (List.length_firstMatch p.subpackets)) := by
  unfold fill
  exact (if_neg hneg).trans (if_neg hsize)

theorem Packet.fill_cases (s : DecodeState) (p : Packet) :
    (p.fill s = (0, p.store (processActions s p.actions).2 p.subpackets none
      (layoutOf_processActions s p.actions) rfl)) ∨
    (p.fill s = (p.headerSize s + p.subpacketSize s,
      p.store (processActions s p.actions).2 (p.trySubpackets s).2 (p.trySubpackets s).1
        (layoutOf_processActions s p.actions) (List.length_firstMatch p.subpackets))) := by
  by_cases h : p.headerSize s < 0 ∨ p.subpackets ≠ [] ∧ p.headerSize s ≠ p.numPacketBytes
  · exact Or.inl (fill_of_rejected h)
  · obtain ⟨hneg, hsize⟩ := not_or.1 h
    exact Or.inr (fill_of_checked hneg hsize)

theorem Packet.actions_fill (s : DecodeState) (p : Packet) :
    (p.fill s).2.actions = (processActions s p.actions).2 := by
  rcases p.fill_cases s with h | h
  · rw [h]
    rfl
  · rw [h]
    rfl

/-- One turn of the loop over the packets. -/
def Packet.attempt (s : DecodeState) (p : Packet) : Bool × Packet :=
  (decide ((p.fill s).1 = s.dataLeft), (p.fill s).2)

end ProtocolDefinition

/-- `Process`. The offset is what the decode state happens to start with, which nothing sets. -/
def ProtocolDefinition.process (d : ProtocolDefinition) (offset : UInt32) (data : List UInt8) :
    Option Nat × ProtocolDefinition :=
  let r := List.firstMatch (ProtocolDefinition.Packet.attempt ⟨data, data.length, offset⟩) d.packets
  (r.1, ⟨r.2⟩)

end OpenRom
