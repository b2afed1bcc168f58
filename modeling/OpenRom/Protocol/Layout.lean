import OpenRom.Protocol.History
import OpenRom.Protocol.MatchCondition

/-!
# The layout of the emitted structs

The member declarations that the generator emits for the struct types and for the packets, and the
sizes that they have for a C++ compiler. A member whose type is a struct is emitted with the name of
its type, and has the size of the struct that was emitted under that name. The decoder goes by the
field itself, which has a clone of the type, with what `ParseNode` has found in the node of the
field behind it. So what is emitted for a field is at most as large as the field, and as large
exactly when nothing was added (`membersSize_eq_iff`).
-/

set_option autoImplicit false

namespace OpenRom

namespace ProtocolDefinition

/-! ## Declarations -/

/-- The type of a member in the emitted code. -/
inductive CType
  | char
  | float
  | double
  | unsigned (w : Width) -- `u8` to `u32`
  | signed (w : Width) -- `s8` to `s32`
  | ulength
  | unixtime
  | uint8 -- `uint8_t`
  | romPacket -- `struct ROM::Packet`
  | named (name : String)
  deriving DecidableEq, Repr

/-- A member: what is in `sType`, its name, and the length that is in `sSuffix`. -/
structure Declaration where
  type : CType
  name : String
  suffix : Option Nat
  deriving DecidableEq, Repr

/-- The suffix of numeric types. -/
def countSuffix (count : Nat) : Option Nat := if count > 1 then some count else none

/-- `GenerateCType` of the built-in types. -/
def BuiltinType.generateCType : BuiltinType → CType × Option Nat
  | unsigned t => (.unsigned t.width, countSuffix t.count)
  | signed t => (.signed t.width, countSuffix t.count)
  | string n _ => (.char, some n)
  | float count _ => (.float, countSuffix count)
  | double count _ => (.double, countSuffix count)
  | length => (.ulength, none) -- there may be a field that is called `length`
  | unixtime => (.unixtime, none)

/-- `s_GenerateMaxLength` -/
def generateMaxLength : Nat := 64

/-- What `snprintf` leaves of a name. -/
def cutName (name : String) : String := String.ofList (name.toList.take (generateMaxLength - 1))

/-- `GenerateCType`. For a struct, the name of the type. -/
def FieldType.generateCType : FieldType → CType × Option Nat
  | .builtin object => object.type.generateCType
  | .struct name _ => (.named (cutName name), none)

def FieldType.declare (name : String) (type : FieldType) : Declaration :=
  ⟨type.generateCType.1, name, type.generateCType.2⟩

/-- The loop of `GenerateFields`, and that of `GenerateTypes`, which has no prefix. -/
def declarations (sPrefix : String) : List Action → List Declaration
  | [] => []
  | .field name type _ :: as => type.declare (sPrefix ++ name) :: declarations sPrefix as
  | .transformationAction _ :: as => declarations sPrefix as
  | .annotationAction _ :: as => declarations sPrefix as

/-- The space for the packer, in a subpacket with a transformation. -/
def packerKludge : List Action → List Declaration
  | [] => []
  | .transformationAction _ :: _ => [⟨.uint8, "__packer_kludge", some 1024⟩]
  | .field _ _ _ :: as => packerKludge as
  | .annotationAction _ :: as => packerKludge as

/-- `struct Packet` in the class of a packet. -/
def Packet.emitted (p : Packet) : List Declaration :=
  ⟨.romPacket, "m_header", none⟩ :: declarations "m_" p.actions

/-- `struct Packet` in the class of a subpacket. -/
def Packet.emittedWith (p : Packet) (sp : Subpacket) : List Declaration :=
  ⟨.romPacket, "m_packet_header", none⟩ ::
    (declarations "m_packet_" p.actions ++
      (declarations "m_" sp.actions ++ packerKludge sp.actions))

/-! ## Sizes -/

/-- The structs that have been declared, with their sizes. -/
abbrev Scope := List (String × Nat)

/-- `sizeof`, with the typedefs in front of the structs. -/
def CType.sizeof (scope : Scope) : CType → Option Nat
  | char => some 1
  | float => some 4
  | double => some 8
  | unsigned w => some w.bytes
  | signed w => some w.bytes
  | ulength => some 4
  | unixtime => some 4
  | uint8 => some 1
  | romPacket => some romPacketSize
  | named name => scope.lookup name

def Declaration.sizeof (scope : Scope) (m : Declaration) : Option Nat :=
  (m.type.sizeof scope).map (m.suffix.getD 1 * ·)

/-- What packed members take. Nothing, when the type of one is not declared. -/
def membersSize (scope : Scope) : List Declaration → Option Nat
  | [] => some 0
  | m :: ms =>
      match m.sizeof scope, membersSize scope ms with
      | some size, some rest => some (size + rest)
      | _, _ => none

/-- `sizeof` of a struct, which is not zero in C++. -/
def structSize (scope : Scope) (ms : List Declaration) : Option Nat :=
  if ms = [] then some 1 else membersSize scope ms

/-- `offsetof` for a member of a packed struct. -/
def offsetof (scope : Scope) (ms : List Declaration) (i : Nat) : Option Nat :=
  if i < ms.length ∧ (membersSize scope ms).isSome then membersSize scope (ms.take i) else none

/-- The scope behind the structs, which are declared one after the other. Nothing, when a name is
declared twice or the type of a member is not declared. -/
def declareStructs (scope : Scope) : List (String × List Declaration) → Option Scope
  | [] => some scope
  | (name, ms) :: structs =>
      match scope.lookup name, structSize scope ms with
      | none, some size => declareStructs ((name, size) :: scope) structs
      | _, _ => none

/-! ## Struct types -/

/-- A `Struct` in `m_Types`. -/
structure StructType where
  name : String
  actions : List Action

/-- `GenerateTypes` -/
def generateTypes (types : List StructType) : List (String × List Declaration) :=
  types.map fun t => (t.name, declarations "" t.actions)

/-- `LookupType`, for the structs. -/
def lookupType (types : List StructType) (name : String) : Option StructType :=
  types.find? (·.name == name)

/-- The type of a field as `ParseChildNode` leaves it: a clone of the type that `LookupType` has
found, behind whose actions are those from the node of the field. Inside of a struct it finds also
that struct, as far as it has been parsed. -/
def FieldType.Cloned (types : List StructType) (self : Option String) : FieldType → Prop
  | .builtin _ => True
  | .struct name actions => self = some name ∨
      ∃ t, lookupType types name = some t ∧ layoutOf t.actions <+: layoutOf actions

def ClonedFields (types : List StructType) (self : Option String) (as : List Action) : Prop :=
  ∀ name type offset, Action.field name type offset ∈ as → type.Cloned types self

end ProtocolDefinition

/-- A definition with its types, as `Load` leaves it. -/
structure TypedDefinition extends ProtocolDefinition where
  types : List ProtocolDefinition.StructType
  cloned_types : ∀ t ∈ types, ProtocolDefinition.ClonedFields types (some t.name) t.actions
  cloned_packets : ∀ p ∈ packets, ProtocolDefinition.ClonedFields types none p.actions
  cloned_subpackets : ∀ p ∈ packets, ∀ sp ∈ p.subpackets,
    ProtocolDefinition.ClonedFields types none sp.actions

namespace ProtocolDefinition

def numFields : List Action → Nat
  | [] => 0
  | .field _ _ _ :: as => numFields as + 1
  | .transformationAction _ :: as => numFields as
  | .annotationAction _ :: as => numFields as

mutual

/-- The type has as many fields as the struct type of its name, and so have the structs in it. An
emitted struct without members has one byte, which one field that was added may take. -/
def FieldType.AsEmitted (types : List StructType) : FieldType → Prop
  | .builtin _ => True
  | .struct name actions =>
      ∀ t, lookupType types name = some t →
        if numFields t.actions = 0 then sizeFrom 0 actions = 1
        else numFields actions = numFields t.actions ∧ AsEmittedFields types actions

def AsEmittedFields (types : List StructType) : List Action → Prop
  | [] => True
  | .field _ type _ :: as => type.AsEmitted types ∧ AsEmittedFields types as
  | .transformationAction _ :: as => AsEmittedFields types as
  | .annotationAction _ :: as => AsEmittedFields types as

end

end ProtocolDefinition

open ProtocolDefinition in
/-- The emitted structs compile, and nothing was added to the types of these fields: the members of
the emitted struct are where the fields are. -/
structure TypedDefinition.LaysOut (d : TypedDefinition) (as : List Action) : Prop where
  names : ∀ t ∈ d.types, t.name.length < generateMaxLength
  compiles : (declareStructs [] (generateTypes d.types)).isSome
  asEmitted : AsEmittedFields d.types as

namespace ProtocolDefinition

/-! ## Scopes -/

def Scope.Extends (scope scope' : Scope) : Prop :=
  ∀ name size, scope.lookup name = some size → scope'.lookup name = some size

theorem Scope.extends_cons {scope : Scope} {name : String} (h : scope.lookup name = none)
    (size : Nat) : scope.Extends ((name, size) :: scope) := by
  intro name' size' hlookup
  have hne : (name' == name) = false := by
    rw [beq_eq_false_iff_ne]
    rintro rfl
    rw [h] at hlookup
    cases hlookup
  rw [List.lookup_cons, hne]
  exact hlookup

theorem membersSize_cons {scope : Scope} {m : Declaration} {ms : List Declaration} {n : Nat} :
    membersSize scope (m :: ms) = some n ↔
      ∃ size rest, m.sizeof scope = some size ∧ membersSize scope ms = some rest ∧
        n = size + rest := by
  rw [membersSize]
  cases m.sizeof scope with
  | none => exact ⟨nofun, fun ⟨_, _, h, _⟩ => nomatch h⟩
  | some size =>
      cases membersSize scope ms with
      | none => exact ⟨nofun, fun ⟨_, _, _, h, _⟩ => nomatch h⟩
      | some rest =>
          refine ⟨fun h => ⟨size, rest, rfl, rfl, (Option.some.inj h).symm⟩, ?_⟩
          rintro ⟨_, _, ⟨⟩, ⟨⟩, rfl⟩
          rfl

theorem membersSize_append {scope : Scope} {ms ms' : List Declaration} {n : Nat} :
    membersSize scope (ms ++ ms') = some n ↔
      ∃ k l, membersSize scope ms = some k ∧ membersSize scope ms' = some l ∧ n = k + l := by
  induction ms generalizing n with
  | nil =>
      constructor
      · intro h
        exact ⟨0, n, rfl, h, (Nat.zero_add n).symm⟩
      · rintro ⟨k, l, hk, hl, rfl⟩
        cases hk
        rw [Nat.zero_add]
        exact hl
  | cons m ms ih =>
      rw [List.cons_append, membersSize_cons]
      constructor
      · rintro ⟨size, rest, hsize, hrest, rfl⟩
        obtain ⟨k, l, hk, hl, rfl⟩ := ih.1 hrest
        exact ⟨size + k, l, membersSize_cons.2 ⟨size, k, hsize, hk, rfl⟩, hl,
          (Nat.add_assoc size k l).symm⟩
      · rintro ⟨k, l, hk, hl, rfl⟩
        obtain ⟨size, rest, hsize, hrest, rfl⟩ := membersSize_cons.1 hk
        exact ⟨size, rest + l, hsize, ih.2 ⟨rest, l, hrest, hl, rfl⟩, Nat.add_assoc size rest l⟩

/-- The types of members that have a size are declared. -/
theorem isSome_of_membersSize {scope : Scope} {ms : List Declaration} {n : Nat}
    (h : membersSize scope ms = some n) : ∀ m ∈ ms, (m.type.sizeof scope).isSome := by
  induction ms generalizing n with
  | nil => exact nofun
  | cons m ms ih =>
      obtain ⟨size, rest, hsize, hrest, -⟩ := membersSize_cons.1 h
      obtain ⟨one, hone, -⟩ := Option.map_eq_some_iff.1 hsize
      exact List.forall_mem_cons.2 ⟨by rw [hone]; rfl, ih hrest⟩

section Extends

variable {scope scope' : Scope} (hext : scope.Extends scope')

include hext

theorem Declaration.sizeof_of_extends {m : Declaration} {size : Nat}
    (h : m.sizeof scope = some size) : m.sizeof scope' = some size := by
  obtain ⟨one, hone, hmul⟩ := Option.map_eq_some_iff.1 h
  refine Option.map_eq_some_iff.2 ⟨one, ?_, hmul⟩
  cases htype : m.type with
  | named name =>
      rw [htype] at hone
      exact hext name one hone
  | char | float | double | unsigned | signed | ulength | unixtime | uint8 | romPacket =>
      rw [htype] at hone
      exact hone

theorem membersSize_of_extends {ms : List Declaration} {n : Nat}
    (h : membersSize scope ms = some n) : membersSize scope' ms = some n := by
  induction ms generalizing n with
  | nil => exact h
  | cons m ms ih =>
      obtain ⟨size, rest, hsize, hrest, rfl⟩ := membersSize_cons.1 h
      exact membersSize_cons.2 ⟨size, rest, m.sizeof_of_extends hext hsize, ih hrest, rfl⟩

theorem structSize_of_extends {ms : List Declaration} {n : Nat}
    (h : structSize scope ms = some n) : structSize scope' ms = some n := by
  unfold structSize at h ⊢
  split
  · next hnil => rwa [if_pos hnil] at h
  · next hne =>
      rw [if_neg hne] at h
      exact membersSize_of_extends hext h

end Extends

theorem declareStructs_cons {scope scope' : Scope} {name : String} {ms : List Declaration}
    {structs : List (String × List Declaration)}
    (h : declareStructs scope ((name, ms) :: structs) = some scope') :
    ∃ size, scope.lookup name = none ∧ structSize scope ms = some size ∧
      declareStructs ((name, size) :: scope) structs = some scope' := by
  rw [declareStructs] at h
  split at h
  · next size hnone hsize => exact ⟨size, hnone, hsize, h⟩
  · cases h

theorem extends_of_declareStructs {scope scope' : Scope}
    {structs : List (String × List Declaration)}
    (h : declareStructs scope structs = some scope') : scope.Extends scope' := by
  induction structs generalizing scope with
  | nil =>
      cases h
      exact fun _ _ hlookup => hlookup
  | cons s structs ih =>
      obtain ⟨name, ms⟩ := s
      obtain ⟨size, hnone, -, hrest⟩ := declareStructs_cons h
      exact fun name' size' hlookup =>
        ih hrest name' size' (Scope.extends_cons hnone size name' size' hlookup)

/-- A struct that has been declared has the size of its members, and none of these has the type of
the struct itself. -/
theorem declared_of_mem {scope scope' : Scope} {structs : List (String × List Declaration)}
    (h : declareStructs scope structs = some scope') :
    ∀ s ∈ structs, (∃ size, scope'.lookup s.1 = some size ∧ structSize scope' s.2 = some size) ∧
      ∀ m ∈ s.2, m.type ≠ .named s.1 := by
  induction structs generalizing scope with
  | nil => exact nofun
  | cons s structs ih =>
      obtain ⟨name, ms⟩ := s
      obtain ⟨size, hnone, hsize, hrest⟩ := declareStructs_cons h
      have hext := extends_of_declareStructs hrest
      refine List.forall_mem_cons.2 ⟨⟨⟨size, hext name size ?_, ?_⟩, ?_⟩, ih hrest⟩
      · rw [List.lookup_cons, beq_self_eq_true]
      · exact structSize_of_extends (extends_of_declareStructs h) hsize
      · -- the name is not in the scope where the members are declared
        intro m hm htype
        have hne : ms ≠ [] := List.ne_nil_of_mem hm
        have hmembers : membersSize scope ms = some size := (if_neg hne).symm.trans hsize
        have hsome := isSome_of_membersSize hmembers m hm
        have hlookup : (CType.named name).sizeof scope = none := hnone
        rw [htype, hlookup] at hsome
        cases hsome

/-! ## Fields and their types -/

theorem cutName_of_lt {name : String} (h : name.length < generateMaxLength) :
    cutName name = name := by
  have hlen : name.toList.length ≤ generateMaxLength - 1 := by
    rw [String.length_toList]
    exact Nat.le_sub_one_of_lt h
  rw [cutName, List.take_of_length_le hlen, String.ofList_toList]

theorem length_declarations (sPrefix : String) (as : List Action) :
    (declarations sPrefix as).length = numFields as := by
  induction as with
  | nil => rfl
  | cons a as ih =>
      cases a with
      | field name type offset => exact congrArg (· + 1) ih
      | transformationAction t => exact ih
      | annotationAction name => exact ih

theorem declarations_append (sPrefix : String) (as bs : List Action) :
    declarations sPrefix (as ++ bs) = declarations sPrefix as ++ declarations sPrefix bs := by
  induction as with
  | nil => rfl
  | cons a as ih =>
      cases a with
      | field name type offset => exact congrArg (List.cons _) ih
      | transformationAction t => exact ih
      | annotationAction name => exact ih

theorem mem_declarations {sPrefix name : String} {type : FieldType} {offset : UInt32}
    {as : List Action} (h : .field name type offset ∈ as) :
    type.declare (sPrefix ++ name) ∈ declarations sPrefix as := by
  induction as with
  | nil => cases h
  | cons a as ih =>
      rcases List.mem_cons.1 h with rfl | hmem
      · exact List.mem_cons_self
      · cases a with
        | field name' type' offset' => exact List.mem_cons_of_mem _ (ih hmem)
        | transformationAction t => exact ih hmem
        | annotationAction name' => exact ih hmem

/-- What has a layout that a field and more actions begin with. -/
theorem layoutOf_prefix_field {own as : List Action} {name : String} {type : FieldType}
    {offset : UInt32} (h : layoutOf own <+: layoutOf (.field name type offset :: as)) :
    own = [] ∨ ∃ type' offset' own', own = .field name type' offset' :: own' ∧
      type'.layout = type.layout ∧ layoutOf own' <+: layoutOf as := by
  rcases own with - | ⟨⟨name', type', offset'⟩ | t | note, own⟩
  · exact Or.inl rfl
  · obtain ⟨hhead, hrest⟩ := List.cons_prefix_cons.1 h
    injection hhead with hname htype
    exact Or.inr ⟨type', offset', own, by rw [hname], htype, hrest⟩
  · cases (List.cons_prefix_cons.1 h).1
  · cases (List.cons_prefix_cons.1 h).1

theorem layoutOf_prefix_transformationAction {own as : List Action} {t : Transformation}
    (h : layoutOf own <+: layoutOf (.transformationAction t :: as)) :
    own = [] ∨
      ∃ t' own', own = .transformationAction t' :: own' ∧ layoutOf own' <+: layoutOf as := by
  rcases own with - | ⟨⟨name', type', offset'⟩ | t' | note, own⟩
  · exact Or.inl rfl
  · cases (List.cons_prefix_cons.1 h).1
  · exact Or.inr ⟨t', own, rfl, (List.cons_prefix_cons.1 h).2⟩
  · cases (List.cons_prefix_cons.1 h).1

theorem layoutOf_prefix_annotationAction {own as : List Action} {name : String}
    (h : layoutOf own <+: layoutOf (.annotationAction name :: as)) :
    own = [] ∨ ∃ own', own = .annotationAction name :: own' ∧ layoutOf own' <+: layoutOf as := by
  rcases own with - | ⟨⟨name', type', offset'⟩ | t | note, own⟩
  · exact Or.inl rfl
  · cases (List.cons_prefix_cons.1 h).1
  · cases (List.cons_prefix_cons.1 h).1
  · obtain ⟨hhead, hrest⟩ := List.cons_prefix_cons.1 h
    cases hhead
    exact Or.inr ⟨own, rfl, hrest⟩

theorem lookupType_eq_some {types : List StructType} {name : String} {t : StructType}
    (h : lookupType types name = some t) : t ∈ types ∧ t.name = name := by
  unfold lookupType at h
  have hfound := List.find?_some h
  exact ⟨List.mem_of_find?_eq_some h, beq_iff_eq.1 hfound⟩

theorem ClonedFields.nil {types : List StructType} {self : Option String} :
    ClonedFields types self [] := fun _ _ _ h => absurd h List.not_mem_nil

theorem ClonedFields.field {types : List StructType} {self : Option String} {name : String}
    {type : FieldType} {offset : UInt32} {as : List Action} (htype : type.Cloned types self)
    (h : ClonedFields types self as) :
    ClonedFields types self (.field name type offset :: as) := by
  intro name' type' offset' hmem
  rcases List.mem_cons.1 hmem with heq | hmem
  · cases heq
    exact htype
  · exact h name' type' offset' hmem

theorem ClonedFields.tail {types : List StructType} {self : Option String} {a : Action}
    {as : List Action} (h : ClonedFields types self (a :: as)) : ClonedFields types self as :=
  fun name type offset hmem => h name type offset (List.mem_cons_of_mem a hmem)

theorem ClonedFields.append_left {types : List StructType} {self : Option String}
    {as bs : List Action} (h : ClonedFields types self (as ++ bs)) : ClonedFields types self as :=
  fun name type offset hmem => h name type offset (List.mem_append_left bs hmem)

theorem FieldType.Cloned.congr {types : List StructType} {self : Option String}
    {type type' : FieldType} (h : type.layout = type'.layout) (htype : type.Cloned types self) :
    type'.Cloned types self := by
  cases type with
  | builtin object =>
      obtain ⟨object', rfl, -⟩ := layout_eq_builtin h
      trivial
  | struct name actions =>
      obtain ⟨actions', rfl, hactions⟩ := layout_eq_struct h
      refine htype.imp_right ?_
      rintro ⟨t, ht, hown⟩
      exact ⟨t, ht, hactions ▸ hown⟩

theorem ClonedFields.congr {types : List StructType} {self : Option String} {as bs : List Action}
    (h : layoutOf as = layoutOf bs) (has : ClonedFields types self as) :
    ClonedFields types self bs := by
  induction as generalizing bs with
  | nil =>
      cases bs with
      | nil => exact has
      | cons b bs => cases b <;> cases h
  | cons a as ih =>
      intro name type offset hmem
      cases a with
      | field name' type' offset' =>
          obtain ⟨type'', offset'', bs, rfl, hlayout, hsame⟩ := layoutOf_eq_field h
          rcases List.mem_cons.1 hmem with hhead | hmem
          · cases hhead
            exact (has _ _ _ List.mem_cons_self).congr hlayout
          · exact ih hsame has.tail name type offset hmem
      | transformationAction t =>
          obtain ⟨bs, rfl, hsame⟩ := layoutOf_eq_transformationAction h
          rcases List.mem_cons.1 hmem with hhead | hmem
          · cases hhead
          · exact ih hsame has.tail name type offset hmem
      | annotationAction note =>
          obtain ⟨bs, rfl, hsame⟩ := layoutOf_eq_annotationAction h
          rcases List.mem_cons.1 hmem with hhead | hmem
          · cases hhead
          · exact ih hsame has.tail name type offset hmem

theorem getD_countSuffix (count : Nat) : (countSuffix count).getD 1 = max count 1 := by
  unfold countSuffix
  split
  · next h => exact (Nat.max_eq_left (Nat.le_of_lt h)).symm
  · next h => exact (Nat.max_eq_right (Nat.not_lt.1 h)).symm

/-- The C types have the sizes that the decoder counts. -/
theorem BuiltinType.sizeof_declare (scope : Scope) (name : String) (type : BuiltinType) :
    Declaration.sizeof scope ⟨type.generateCType.1, name, type.generateCType.2⟩ =
      some type.sizeof := by
  cases type with
  | unsigned t | signed t =>
      exact congrArg (fun n => some (n * t.width.bytes)) (getD_countSuffix t.count)
  | string n minLength => exact congrArg some (Nat.mul_one n)
  | float count displayCount => exact congrArg (fun n => some (n * 4)) (getD_countSuffix count)
  | double count displayCount => exact congrArg (fun n => some (n * 8)) (getD_countSuffix count)
  | length => rfl
  | unixtime => rfl

end ProtocolDefinition

open ProtocolDefinition in
/-- A packet that is left by `Process` has the layout that it had before. -/
theorem ProtocolDefinition.exists_of_mem_process {d : ProtocolDefinition} {offset : UInt32}
    {data : List UInt8} {p' : ProtocolDefinition.Packet}
    (h : p' ∈ (d.process offset data).2.packets) : ∃ p ∈ d.packets, p.layout = p'.layout := by
  have hmem : p'.layout ∈ d.packets.map Packet.layout :=
    layout_process d offset data ▸ List.mem_map_of_mem h
  exact List.mem_map.1 hmem

open ProtocolDefinition in
/-- Decoding a payload leaves the types of all fields as they are. -/
def TypedDefinition.process (d : TypedDefinition) (offset : UInt32) (data : List UInt8) :
    Option Nat × TypedDefinition :=
  ((d.toProtocolDefinition.process offset data).1,
    { toProtocolDefinition := (d.toProtocolDefinition.process offset data).2
      types := d.types
      cloned_types := d.cloned_types
      cloned_packets := by
        intro p' hp'
        obtain ⟨p, hp, hlayout⟩ := exists_of_mem_process hp'
        exact (d.cloned_packets p hp).congr (congrArg Prod.fst hlayout)
      cloned_subpackets := by
        intro p' hp' sp' hsp'
        obtain ⟨p, hp, hlayout⟩ := exists_of_mem_process hp'
        have hmap : (p.subpackets.map fun sp => layoutOf sp.actions) =
          p'.subpackets.map fun sp => layoutOf sp.actions := congrArg Prod.snd hlayout
        have hmem : layoutOf sp'.actions ∈ p.subpackets.map fun sp => layoutOf sp.actions :=
          hmap ▸ List.mem_map_of_mem hsp'
        obtain ⟨sp, hsp, hsame⟩ := List.mem_map.1 hmem
        exact (d.cloned_subpackets p hp sp hsp).congr hsame })

namespace ProtocolDefinition

/-! ## Emitted sizes -/

section Sizes

variable {types : List StructType} {scope : Scope}

/-- What is emitted for a field of the type is at most as large as the type, and as large exactly
when nothing was added to it. -/
def FieldType.SizeBounded (types : List StructType) (scope : Scope) (type : FieldType) : Prop :=
  ∀ type' : FieldType, type'.layout = type.layout → type'.Cloned types none → ∀ name size,
    (type'.declare name).sizeof scope = some size →
      size ≤ type.sizeof ∧ (size = type.sizeof ↔ type.AsEmitted types)

/-- The same of the fields that a struct has from its type, and all of the fields of the struct. -/
def SizeBoundedFields (types : List StructType) (scope : Scope) (as : List Action) : Prop :=
  ∀ own : List Action, layoutOf own <+: layoutOf as → ClonedFields types none own → ∀ sPrefix n,
    membersSize scope (declarations sPrefix own) = some n →
      n ≤ sizeofMembers as ∧
        (n = sizeofMembers as ↔ numFields as = numFields own ∧ AsEmittedFields types as)

theorem sizeBoundedFields_nil : SizeBoundedFields types scope [] := by
  intro own hown hfields sPrefix n hn
  rcases own with - | ⟨a, own⟩
  · cases hn
    exact ⟨Nat.le_refl 0, iff_of_true rfl ⟨rfl, trivial⟩⟩
  · cases a <;> cases List.prefix_nil.1 hown

theorem FieldType.SizeBounded.cons {type : FieldType} (htype : type.SizeBounded types scope)
    (hconst : 0 < type.constantSize) {as : List Action} (has : SizeBoundedFields types scope as)
    (name : String) (offset : UInt32) :
    SizeBoundedFields types scope (.field name type offset :: as) := by
  intro own hown hfields sPrefix n hn
  have hsizeof := FieldType.sizeof_of_constantSize hconst
  rw [sizeofMembers_field]
  rcases layoutOf_prefix_field hown with rfl | ⟨type', offset', own, rfl, hlayout, howns⟩
  · -- the field has been added
    cases hn
    exact ⟨Nat.zero_le _, iff_of_false (by omega) fun h => Nat.succ_ne_zero _ h.1⟩
  · obtain ⟨size, rest, hsize, hrest, rfl⟩ := membersSize_cons.1 hn
    obtain ⟨htypeLe, htypeIff⟩ :=
      htype type' hlayout (hfields name type' offset' List.mem_cons_self) _ size hsize
    obtain ⟨hrestLe, hrestIff⟩ := has own howns hfields.tail _ rest hrest
    refine ⟨Nat.add_le_add htypeLe hrestLe, ?_⟩
    show _ ↔ numFields as + 1 = numFields own + 1 ∧ type.AsEmitted types ∧ AsEmittedFields types as
    rw [Nat.add_right_cancel_iff, and_left_comm, ← hrestIff, ← htypeIff]
    omega

theorem SizeBoundedFields.annotationAction {as : List Action}
    (has : SizeBoundedFields types scope as) (name : String) :
    SizeBoundedFields types scope (.annotationAction name :: as) := by
  intro own hown hfields sPrefix n hn
  rcases layoutOf_prefix_annotationAction hown with rfl | ⟨own, rfl, hrest⟩
  · exact has [] List.nil_prefix hfields sPrefix n hn
  · exact has own hrest hfields.tail sPrefix n hn

theorem FieldType.sizeBounded_builtin (object : Builtin) :
    (FieldType.builtin object).SizeBounded types scope := by
  intro type' hlayout _ name size hsize
  obtain ⟨object', rfl, hobject⟩ := layout_eq_builtin hlayout.symm
  cases hsize.symm.trans (object'.type.sizeof_declare scope name)
  rw [← hobject]
  exact ⟨Nat.le_refl _, iff_of_true rfl trivial⟩

variable (hnames : ∀ t ∈ types, t.name.length < generateMaxLength)
  (hscope : declareStructs [] (generateTypes types) = some scope)

include hnames hscope

/-- The struct that a member of a struct type has. -/
theorem sizeof_declare_struct {typeName : String} {t : StructType}
    (ht : lookupType types typeName = some t) (inner : List Action) (name : String) :
    ((FieldType.struct typeName inner).declare name).sizeof scope =
      structSize scope (declarations "" t.actions) := by
  obtain ⟨hmem, hname⟩ := lookupType_eq_some ht
  obtain ⟨⟨size, hlookup, hsize⟩, -⟩ :=
    declared_of_mem hscope (t.name, declarations "" t.actions) (List.mem_map_of_mem hmem)
  rw [hsize, ← hname]
  show (scope.lookup (cutName t.name)).map (1 * ·) = some size
  rw [cutName_of_lt (hnames t hmem), hlookup]
  exact congrArg some (Nat.one_mul size)

variable (hcloned : ∀ t ∈ types, ClonedFields types (some t.name) t.actions)

include hcloned

/-- No field of an emitted struct has the type of the struct itself. -/
theorem clonedFields_of_mem {t : StructType} (ht : t ∈ types) :
    ClonedFields types none t.actions := by
  intro name type offset hmem
  have htype := hcloned t ht name type offset hmem
  cases type with
  | builtin object => trivial
  | struct typeName inner =>
      rcases htype with hself | hother
      · obtain ⟨-, hne⟩ := declared_of_mem hscope (t.name, declarations "" t.actions)
          (List.mem_map_of_mem ht)
        refine absurd ?_ (hne _ (mem_declarations hmem))
        rw [← Option.some.inj hself]
        exact congrArg CType.named (cutName_of_lt (hnames t ht))
      · exact Or.inr hother

theorem FieldType.sizeBounded_struct {typeName : String} {inner : List Action}
    (hinner : SizeBoundedFields types scope inner) (hsized : Sized inner)
    (hconst : 0 < (FieldType.struct typeName inner).constantSize) :
    (FieldType.struct typeName inner).SizeBounded types scope := by
  intro type' hlayout hclone name size hsize
  obtain ⟨inner', rfl, hsame⟩ := layout_eq_struct hlayout.symm
  rcases hclone with hself | ⟨t, ht, hown⟩
  · cases hself
  rw [sizeof_declare_struct hnames hscope ht] at hsize
  rw [← hsame] at hown
  have hfields := clonedFields_of_mem hnames hscope hcloned (lookupType_eq_some ht).1
  have hsizeof := sizeof_of_constantSize hconst
  have hfrom : sizeFrom 0 inner = sizeofMembers inner := by
    rw [(sizeFrom_of_sized hsized).1, Int.zero_add]
  have hemitted : (FieldType.struct typeName inner).AsEmitted types ↔
      if numFields t.actions = 0 then sizeFrom 0 inner = 1
      else numFields inner = numFields t.actions ∧ AsEmittedFields types inner := by
    refine ⟨fun h => h t ht, fun h t' ht' => ?_⟩
    cases ht.symm.trans ht'
    exact h
  have hnil : declarations "" t.actions = [] ↔ numFields t.actions = 0 := by
    rw [← length_declarations "" t.actions, List.length_eq_zero_iff]
  show size ≤ sizeofMembers inner ∧ (size = sizeofMembers inner ↔ _)
  have hpos : 0 < (sizeofMembers inner : Int) := hfrom ▸ hconst
  rw [hemitted]
  unfold structSize at hsize
  by_cases hnone : numFields t.actions = 0
  · -- the emitted struct has no members
    rw [if_pos (hnil.2 hnone)] at hsize
    cases hsize
    rw [if_pos hnone, hfrom]
    exact ⟨by omega, by omega⟩
  · rw [if_neg (mt hnil.1 hnone)] at hsize
    rw [if_neg hnone]
    exact hinner t.actions hown hfields "" size hsize

/-- The sum over the fields of a struct. -/
theorem sizeBoundedFields {as : List Action} (hplain : PlainActions as) (hsized : Sized as) :
    SizeBoundedFields types scope as := by
  induction as using actionsRec with
  | nil => exact sizeBoundedFields_nil
  | builtin name object offset as ih =>
      exact (FieldType.sizeBounded_builtin object).cons hsized.1 (ih hplain.2 hsized.2) name offset
  | struct name typeName inner offset as ihInner ih =>
      have hinner := sized_of_sizeFrom hplain.1 hsized.1
      have htype := FieldType.sizeBounded_struct hnames hscope hcloned (ihInner hplain.1 hinner)
        hinner hsized.1
      exact htype.cons hsized.1 (ih hplain.2 hsized.2) name offset
  | transformationAction t as ih => exact hplain.elim
  | annotationAction name as ih => exact (ih hplain hsized).annotationAction name

/-- The members in front of a field take what the decoder counts for them exactly when nothing was
added to their types. -/
theorem membersSize_eq_iff {as : List Action} (hplain : PlainActions as) (hsized : Sized as)
    (hfields : ClonedFields types none as) {sPrefix : String} {n : Nat}
    (hn : membersSize scope (declarations sPrefix as) = some n) :
    n ≤ sizeofMembers as ∧ (n = sizeofMembers as ↔ AsEmittedFields types as) := by
  have hbounded := sizeBoundedFields hnames hscope hcloned hplain hsized as List.prefix_rfl hfields
    sPrefix n hn
  rwa [and_iff_right (rfl : numFields as = numFields as)] at hbounded

/-- Where nothing was added, a member has the size of its field, and the members have those of the
fields, also of fields that the decoder counts no size for. -/
theorem membersSize_of_asEmitted {as own : List Action} (hown : layoutOf own <+: layoutOf as)
    (hfields : ClonedFields types none own) (hnum : numFields as = numFields own)
    (hemitted : AsEmittedFields types as) (sPrefix : String) :
    membersSize scope (declarations sPrefix own) = some (sizeofMembers as) := by
  induction as using actionsRec generalizing own sPrefix with
  | nil =>
      rcases own with - | ⟨a, own⟩
      · rfl
      · cases a <;> cases List.prefix_nil.1 hown
  | builtin name object offset as ih =>
      rcases layoutOf_prefix_field hown with rfl | ⟨type', offset', own, rfl, hlayout, howns⟩
      · exact absurd hnum (Nat.succ_ne_zero _)
      · obtain ⟨object', rfl, hobject⟩ := FieldType.layout_eq_builtin hlayout.symm
        refine membersSize_cons.2 ⟨_, _, object'.type.sizeof_declare scope _,
          ih howns hfields.tail (Nat.succ.inj hnum) hemitted.2 sPrefix, ?_⟩
        rw [← hobject]
        rfl
  | struct name typeName inner offset as ihInner ih =>
      rcases layoutOf_prefix_field hown with rfl | ⟨type', offset', own, rfl, hlayout, howns⟩
      · exact absurd hnum (Nat.succ_ne_zero _)
      obtain ⟨inner', rfl, hsame⟩ := FieldType.layout_eq_struct hlayout.symm
      refine membersSize_cons.2 ⟨sizeofMembers inner, _, ?_,
        ih howns hfields.tail (Nat.succ.inj hnum) hemitted.2 sPrefix, rfl⟩
      obtain hself | ⟨t, ht, hprefix⟩ := hfields _ _ _ List.mem_cons_self
      · cases hself
      rw [sizeof_declare_struct hnames hscope ht]
      have hnil : declarations "" t.actions = [] ↔ numFields t.actions = 0 := by
        rw [← length_declarations "" t.actions, List.length_eq_zero_iff]
      have htype := hemitted.1 t ht
      by_cases hnone : numFields t.actions = 0
      · -- the emitted struct has one byte, and so has the field that was added
        rw [if_pos hnone] at htype
        have hsum : sizeFrom 0 inner = 0 + sizeofMembers inner := sizeFrom_eq (by omega)
        rw [structSize, if_pos (hnil.2 hnone)]
        exact congrArg some (by omega)
      · rw [if_neg hnone] at htype
        rw [structSize, if_neg (mt hnil.1 hnone)]
        exact ihInner (hsame ▸ hprefix) (clonedFields_of_mem hnames hscope hcloned
          (lookupType_eq_some ht).1) htype.1 htype.2 ""
  | transformationAction t as ih =>
      rcases layoutOf_prefix_transformationAction hown with rfl | ⟨t', own, rfl, hrest⟩
      · have hnil : layoutOf [] <+: layoutOf as := List.nil_prefix
        exact ih hnil hfields hnum hemitted sPrefix
      · exact ih hrest hfields.tail hnum hemitted sPrefix
  | annotationAction name as ih =>
      rcases layoutOf_prefix_annotationAction hown with rfl | ⟨own, rfl, hrest⟩
      · have hnil : layoutOf [] <+: layoutOf as := List.nil_prefix
        exact ih hnil hfields hnum hemitted sPrefix
      · exact ih hrest hfields.tail hnum hemitted sPrefix

end Sizes

end ProtocolDefinition

end OpenRom
