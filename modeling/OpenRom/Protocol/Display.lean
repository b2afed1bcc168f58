import OpenRom.Protocol.Memory

/-!
# What is displayed

The values that the `Print` functions show of a decoded packet. They go through the arrays as the
definition declares them, whatever the last `Fill` has stored, and a display count may be larger
than its array.
-/

set_option autoImplicit false

namespace OpenRom

namespace ProtocolDefinition

/-- How many values `unsignedType::Print` shows. A single one is shown by
`GetHumanReadableContent`. -/
def UnsignedType.numPrinted (t : UnsignedType) : Nat :=
  if t.count = 1 then 1
  else if 0 ≤ t.displayCount then t.displayCount.toNat
  else t.count

/-- How many values `signedType::Print` shows. -/
def UnsignedType.numPrintedSigned (t : UnsignedType) : Nat :=
  if t.format ≠ .decimal ∨ t.enumeration.isSome ∨ t.count ≠ 1 then t.numPrinted
  else if 0 ≤ t.displayCount then t.displayCount.toNat
  else t.count

/-- How many values `floatType::Print` and `doubleType::Print` show. -/
def numPrintedNumber (count : Nat) (displayCount : Int) : Nat :=
  if 0 ≤ displayCount then displayCount.toNat else count

/-- How many entries of its array `Print` goes through. A string ends with the array, or before. -/
def BuiltinType.numPrinted : BuiltinType → Nat
  | unsigned t => t.numPrinted
  | signed t => t.numPrintedSigned
  | string n _ => n
  | float count displayCount => numPrintedNumber count displayCount
  | double count displayCount => numPrintedNumber count displayCount
  | length => 1
  | unixtime => 1

/-- The values that `Print` shows of an array, or the characters that it shows of a string, as far
as the array has them. -/
def BuiltinType.shown (cells : List Nat) : BuiltinType → List Nat
  | unsigned t => cells.take t.numPrinted
  | signed t => cells.take t.numPrintedSigned
  | string _ _ => cells.takeWhile (· != 0)
  | float count displayCount => cells.take (numPrintedNumber count displayCount)
  | double count displayCount => cells.take (numPrintedNumber count displayCount)
  | length => cells.take 1
  | unixtime => cells.take 1

/-- What `Print` shows. Nothing when it goes on behind the array. -/
def BuiltinType.print (cells : List Nat) (type : BuiltinType) : Option (List Nat) :=
  if type.numPrinted ≤ cells.length then some (type.shown cells) else none

mutual

/-- `Print` of a type, which for a struct goes through its fields. -/
def FieldType.print : FieldType → Option (List (List Nat))
  | .builtin object => (object.type.print object.cells).map fun values => [values]
  | .struct _ actions => printFields actions

/-- `PrintFields` -/
def printFields : List Action → Option (List (List Nat))
  | [] => some []
  | .field _ type _ :: as => do
      let values ← type.print
      let rest ← printFields as
      return values ++ rest
  | .transformationAction _ :: as => printFields as
  | .annotationAction _ :: as => printFields as

end

/-- The subpacket that is printed too, with its number. -/
def Packet.selected (p : Packet) : Option (Nat × Subpacket) :=
  p.lastSubpacket.bind fun k => p.subpackets[k]?.map fun sp => (k, sp)

/-- `Packet::Print`, which shows the subpacket too if there is one. -/
def Packet.print (p : Packet) : Option (List (List Nat) × Option (Nat × List (List Nat))) := do
  let fields ← printFields p.actions
  match p.selected with
  | none => return (fields, none)
  | some (k, sp) => return (fields, some (k, ← printFields sp.actions))

/-- The packet that `Process` returns after these payloads, as it is displayed. Nothing when the
program has left its memory before that, or there is no such packet. -/
def printed (d : ProtocolDefinition) (history : List (UInt32 × List UInt8)) (offset : UInt32)
    (bs : List UInt8) : Option (Nat × List (List Nat) × Option (Nat × List (List Nat))) := do
  let d ← d.decodeAll history
  let r ← d.decode offset bs
  let i ← r.1
  let p ← r.2.packets[i]?
  let shown ← p.print
  return (i, shown)

/-! ## Display counts -/

mutual

/-- `Print` stays inside of the arrays of the type. -/
def FieldType.Printable : FieldType → Prop
  | .builtin object => object.type.numPrinted ≤ object.type.numCells
  | .struct _ actions => PrintableFields actions

def PrintableFields : List Action → Prop
  | [] => True
  | .field _ type _ :: as => type.Printable ∧ PrintableFields as
  | .transformationAction _ :: as => PrintableFields as
  | .annotationAction _ :: as => PrintableFields as

end

mutual

/-- The values that `Print` shows of a type, as far as the arrays have them. -/
def FieldType.shown : FieldType → List (List Nat)
  | .builtin object => [object.type.shown object.cells]
  | .struct _ actions => shownFields actions

def shownFields : List Action → List (List Nat)
  | [] => []
  | .field _ type _ :: as => type.shown ++ shownFields as
  | .transformationAction _ :: as => shownFields as
  | .annotationAction _ :: as => shownFields as

end

@[simp] theorem shownFields_field (name : String) (type : FieldType) (offset : UInt32)
    (as : List Action) :
    shownFields (.field name type offset :: as) = type.shown ++ shownFields as := rfl

theorem printFields_field (name : String) (type : FieldType) (offset : UInt32) (as : List Action) :
    printFields (.field name type offset :: as) =
      type.print.bind fun values => (printFields as).bind fun rest => some (values ++ rest) := rfl

/-- `Print` shows these values if and only if it stays inside of the arrays. -/
theorem printFields_eq_some_iff {as : List Action} {values : List (List Nat)} :
    printFields as = some values ↔ PrintableFields as ∧ shownFields as = values := by
  -- a field, from what is known of its type
  have hfield : ∀ (name : String) (type : FieldType) (offset : UInt32) (as : List Action),
      (∀ {values}, type.print = some values ↔ type.Printable ∧ type.shown = values) →
      (∀ {values}, printFields as = some values ↔
        PrintableFields as ∧ shownFields as = values) → ∀ {values},
      (printFields (.field name type offset :: as) = some values ↔
        PrintableFields (.field name type offset :: as) ∧
          shownFields (.field name type offset :: as) = values) := by
    intro name type offset as htype ih values
    rw [printFields_field, shownFields_field, Option.bind_eq_some_iff]
    constructor
    · rintro ⟨front, hfront, hbehind⟩
      obtain ⟨rest, hrest, heq⟩ := Option.bind_eq_some_iff.1 hbehind
      obtain ⟨hprintable, rfl⟩ := htype.1 hfront
      obtain ⟨hrestPrintable, rfl⟩ := ih.1 hrest
      exact ⟨⟨hprintable, hrestPrintable⟩, Option.some.inj heq⟩
    · rintro ⟨⟨hprintable, hrestPrintable⟩, rfl⟩
      refine ⟨_, htype.2 ⟨hprintable, rfl⟩, ?_⟩
      rw [ih.2 ⟨hrestPrintable, rfl⟩, Option.bind_some]
  induction as using actionsRec generalizing values with
  | nil => exact ⟨fun h => ⟨trivial, Option.some.inj h⟩, fun h => congrArg some h.2⟩
  | builtin name object offset as ih =>
      refine hfield name _ offset as ?_ ih
      intro values
      show (if _ then _ else _ : Option (List Nat)).map _ = _ ↔ _
      rw [object.length_cells]
      by_cases hprintable : object.type.numPrinted ≤ object.type.numCells
      · rw [if_pos hprintable]
        exact ⟨fun h => ⟨hprintable, Option.some.inj h⟩, fun h => congrArg some h.2⟩
      · rw [if_neg hprintable]
        exact iff_of_false nofun fun h => hprintable h.1
  | struct name typeName inner offset as ihInner ih =>
      exact hfield name (.struct typeName inner) offset as (fun {_} => ihInner) ih
  | transformationAction t as ih => exact ih
  | annotationAction name as ih => exact ih

@[simp] theorem printableFields_layoutOf (as : List Action) :
    PrintableFields (layoutOf as) ↔ PrintableFields as := by
  induction as using actionsRec with
  | nil => exact Iff.rfl
  | builtin name object offset as ih => exact and_congr_right fun _ => ih
  | struct name typeName inner offset as ihInner ih => exact and_congr ihInner ih
  | transformationAction t as ih => exact ih
  | annotationAction name as ih => exact ih

/-- `Print` stays inside of the arrays of the packet and of its subpacket. -/
def Packet.Printable (p : Packet) : Prop :=
  PrintableFields p.actions ∧ ∀ x ∈ p.selected, PrintableFields x.2.actions

/-- What `Print` shows of the packet and of its subpacket. -/
def Packet.shown (p : Packet) : List (List Nat) × Option (Nat × List (List Nat)) :=
  (shownFields p.actions,
    p.lastSubpacket.bind fun k => p.subpackets[k]?.map fun sp => (k, shownFields sp.actions))

theorem Packet.print_eq_some_iff {p : Packet}
    {x : List (List Nat) × Option (Nat × List (List Nat))} :
    p.print = some x ↔ p.Printable ∧ p.shown = x := by
  have hshown : p.shown =
      (shownFields p.actions, p.selected.map fun x => (x.1, shownFields x.2.actions)) := by
    unfold shown selected
    cases p.lastSubpacket with
    | none => rfl
    | some k =>
        rw [Option.bind_some, Option.bind_some, Option.map_map]
        rfl
  unfold print Printable
  rw [hshown, Option.bind_eq_bind, Option.bind_eq_some_iff]
  simp only [printFields_eq_some_iff]
  rcases p.selected with _ | ⟨k, sp⟩
  · constructor
    · rintro ⟨fields, ⟨hprintable, rfl⟩, ⟨⟩⟩
      exact ⟨⟨hprintable, nofun⟩, rfl⟩
    · rintro ⟨⟨hprintable, -⟩, rfl⟩
      exact ⟨_, ⟨hprintable, rfl⟩, rfl⟩
  · constructor
    · rintro ⟨fields, ⟨hprintable, rfl⟩, hrest⟩
      obtain ⟨rest, hsub, heq⟩ := Option.bind_eq_some_iff.1 hrest
      obtain ⟨hsubPrintable, rfl⟩ := printFields_eq_some_iff.1 hsub
      refine ⟨⟨hprintable, ?_⟩, Option.some.inj heq⟩
      rintro _ ⟨⟩
      exact hsubPrintable
    · rintro ⟨⟨hprintable, hsub⟩, rfl⟩
      refine ⟨_, ⟨hprintable, rfl⟩, ?_⟩
      dsimp only
      rw [printFields_eq_some_iff.2 ⟨hsub _ rfl, rfl⟩]
      rfl

end ProtocolDefinition

end OpenRom
