import OpenRom.Pack.Packer
import OpenRom.Protocol.Layout
import OpenRom.Protocol.Sender

/-!
# Sending packed fields

What `GenerateFunctions` emits for `Send` of a subpacket with a transformation: every field behind
the transformation is an argument, which is packed to the member of that field, and the lengths are
changed by what packing adds. What is packed is longer than the member. So the arguments are not
packed one behind the other: of two of them or more, the last bytes that are sent have never been
stored (`Packet.Compresses.zeros_of_sendPacked`).
-/

set_option autoImplicit false

namespace OpenRom

namespace ProtocolDefinition

/-! ## The emitted function -/

/-- The actions in front of the first transformation. -/
def beforeTransformation : List Action → List Action
  | [] => []
  | .field name type offset :: as => .field name type offset :: beforeTransformation as
  | .transformationAction _ :: _ => []
  | .annotationAction name :: as => .annotationAction name :: beforeTransformation as

def behindTransformation : List Action → List Action
  | [] => []
  | .field _ _ _ :: as => behindTransformation as
  | .transformationAction _ :: as => as
  | .annotationAction _ :: as => behindTransformation as

/-- An argument of `Send`, with the member that it is packed to. -/
structure Argument where
  member : Member
  value : List UInt8

/-- The variables of `Send`, and the object. -/
structure Packing where
  iCurrentLength : Int
  iPreviousLength : Int
  memory : List UInt8

/-- An argument is packed. Nothing, when the assertion in `Pack` fails or it stores behind the
object. -/
def Packing.pack (lengthOffset : Nat) (argument : Argument) (s : Packing) : Option Packing :=
  match Pack.pack argument.value with
  | none => none
  | some w =>
      if argument.member.offset + w.dst.length ≤ s.memory.length then
        let memory := List.store argument.member.offset w.dst s.memory
        let length := LittleEndian.decode (List.load lengthOffset 4 memory)
        let length := uint32 (length - argument.member.type.sizeof + w.outlen)
        some ⟨s.iCurrentLength + w.outlen, s.iPreviousLength + argument.member.type.sizeof,
          List.store lengthOffset (LittleEndian.encode 4 length) memory⟩
      else none

def Packing.packAll (lengthOffset : Nat) : List Argument → Packing → Option Packing
  | [], s => some s
  | argument :: arguments, s =>
      match s.pack lengthOffset argument with
      | none => none
      | some s' => packAll lengthOffset arguments s'

/-- The length field in front of the transformation is set, if there is one. -/
def Packet.storeTransformedLength (p : Packet) (sp : Subpacket) (iCurrentLength : Int)
    (memory : List UInt8) : List UInt8 :=
  match lengthOffset (sizeofMembers p.actions) (beforeTransformation sp.actions) with
  | none => memory
  | some offset => List.store offset (LittleEndian.encode 4 (uint32 iCurrentLength)) memory

/-- `P_S::Send` of a subpacket with a transformation. Nothing, when it touches memory behind the
object, or the packet has no length that could be changed. -/
def Packet.sendPacked (p : Packet) (sp : Subpacket) (stateSend : List UInt8 → Nat → List UInt8)
    (header memory : List UInt8) (arguments : List Argument) : Option (List UInt8) :=
  match lengthOffset 0 p.actions with
  | none => none
  | some offset =>
      match Packing.packAll offset arguments ⟨0, 0, memory⟩ with
      | none => none
      | some s =>
          let message := header ++ p.storeTransformedLength sp s.iCurrentLength s.memory
          let size := (romPacketSize + constantSizes p.actions + constantSizes sp.actions -
            s.iPreviousLength + s.iCurrentLength : Int).toNat
          if size ≤ message.length then some (stateSend message size) else none

/-- The members behind the transformation. -/
def Packet.packedMembers (p : Packet) (sp : Subpacket) : List Member :=
  generateFields (sizeofMembers p.actions + sizeofMembers (beforeTransformation sp.actions))
    (behindTransformation sp.actions)

/-- The arguments are for the members behind the transformation, and have their sizes. -/
structure Packet.Arguments (p : Packet) (sp : Subpacket) (arguments : List Argument) : Prop where
  members : arguments.map Argument.member = p.packedMembers sp
  sizes : ∀ a ∈ arguments, a.value.length = a.member.type.sizeof

/-- The subpacket when its fields behind the transformation are packed to these bytes. -/
def Packet.packedBody (p : Packet) (sp : Subpacket) (packed : List UInt8) : List UInt8 :=
  List.load (sizeofMembers p.actions) (sizeofMembers (beforeTransformation sp.actions))
    (p.storeTransformedLength sp packed.length (p.reset sp)) ++ packed

/-! ## One argument -/

/-- The size of what `Pack` writes for so many bytes. -/
def packedSize (n : Nat) : Nat := n + 5 + (n - 19) / 255

theorem pack_of_size {src : List UInt8} (hlow : 19 ≤ src.length) (hhigh : src.length < 2 ^ 17) :
    ∃ w, Pack.pack src = some w ∧ w.outlen = w.dst.length ∧
      w.dst.length = packedSize src.length := by
  obtain ⟨w, hw, hout, hlen, -⟩ := (Pack.unpack_pack_iff src (by omega)).2 hlow
  exact ⟨w, hw, hout, hlen⟩

/-- What one argument does. -/
structure Packing.Packs (lengthOffset : Nat) (a : Argument) (s s' : Packing) (dst : List UInt8) :
    Prop where
  room : a.member.offset + packedSize a.member.type.sizeof ≤ s.memory.length
  length_eq : dst.length = packedSize a.member.type.sizeof
  current : s'.iCurrentLength = s.iCurrentLength + packedSize a.member.type.sizeof
  previous : s'.iPreviousLength = s.iPreviousLength + a.member.type.sizeof
  memory : s'.memory = List.store lengthOffset (LittleEndian.encode 4 (uint32
    (LittleEndian.decode (List.load lengthOffset 4 (List.store a.member.offset dst s.memory)) -
      a.member.type.sizeof + packedSize a.member.type.sizeof)))
        (List.store a.member.offset dst s.memory)

section One

variable {lengthOffset : Nat} {a : Argument} {s : Packing}
  (hlow : 19 ≤ a.member.type.sizeof) (hhigh : a.member.type.sizeof < 2 ^ 17)
  (hvalue : a.value.length = a.member.type.sizeof)

include hlow hhigh hvalue

theorem Packing.packs_of_pack {s' : Packing} (h : s.pack lengthOffset a = some s') :
    ∃ w, Pack.pack a.value = some w ∧ Packs lengthOffset a s s' w.dst := by
  obtain ⟨w, hw, hout, hlen⟩ := pack_of_size (hvalue ▸ hlow) (hvalue ▸ hhigh)
  rw [hvalue] at hlen
  rw [hlen] at hout
  unfold pack at h
  rw [hw] at h
  dsimp only at h
  split at h
  next hroom =>
    cases h
    refine ⟨w, hw, hlen ▸ hroom, hlen, ?_, rfl, ?_⟩
    · exact congrArg (s.iCurrentLength + ·) hout
    · rw [hout]
  next => cases h

theorem Packing.exists_pack
    (hroom : a.member.offset + packedSize a.member.type.sizeof ≤ s.memory.length) :
    ∃ s', s.pack lengthOffset a = some s' := by
  obtain ⟨w, hw, -, hlen⟩ := pack_of_size (hvalue ▸ hlow) (hvalue ▸ hhigh)
  rw [hvalue] at hlen
  unfold pack
  rw [hw]
  dsimp only
  rw [if_pos (by omega)]
  exact ⟨_, rfl⟩

end One

/-! ## All arguments -/

/-- The sizes of what `Pack` writes for the members. -/
def packedSizes (members : List Member) : Nat :=
  (members.map fun m => packedSize m.type.sizeof).sum

/-- What all of the arguments do. -/
structure Packing.PacksAll (lengthOffset : Nat) (arguments : List Argument) (s s' : Packing) :
    Prop where
  length_memory : s'.memory.length = s.memory.length
  current : s'.iCurrentLength = s.iCurrentLength + packedSizes (arguments.map Argument.member)
  previous : s'.iPreviousLength =
    s.iPreviousLength + ((arguments.map Argument.member).map fun m => m.type.sizeof).sum
  load : ∀ offset size, List.Apart offset size lengthOffset 4 →
    (∀ a ∈ arguments, List.Apart offset size a.member.offset (packedSize a.member.type.sizeof)) →
      List.load offset size s'.memory = List.load offset size s.memory

section All

variable {lengthOffset : Nat} {s s' : Packing} (hroom : lengthOffset + 4 ≤ s.memory.length)

include hroom

theorem Packing.Packs.length_memory {a : Argument} {dst : List UInt8}
    (h : Packs lengthOffset a s s' dst) : s'.memory.length = s.memory.length := by
  have hstore := List.length_store (h.length_eq ▸ h.room)
  have hlength : lengthOffset + 4 ≤ (List.store a.member.offset dst s.memory).length := by
    rwa [hstore]
  rw [h.memory, List.length_store (by rwa [LittleEndian.length_encode]), hstore]

theorem Packing.Packs.load_of_apart {a : Argument} {dst : List UInt8}
    (h : Packs lengthOffset a s s' dst) {offset size : Nat}
    (hlength : List.Apart offset size lengthOffset 4)
    (hmember : List.Apart offset size a.member.offset (packedSize a.member.type.sizeof)) :
    List.load offset size s'.memory = List.load offset size s.memory := by
  have hdst := h.length_eq ▸ h.room
  have hstore := List.length_store hdst
  rw [h.memory, List.load_store_of_apart (by rwa [LittleEndian.length_encode])
    (by rwa [LittleEndian.length_encode, hstore]),
    List.load_store_of_apart (by rwa [h.length_eq]) hdst]

theorem Packing.packsAll_of_packAll {arguments : List Argument}
    (hsizes : ∀ a ∈ arguments, 19 ≤ a.member.type.sizeof ∧ a.member.type.sizeof < 2 ^ 17 ∧
      a.value.length = a.member.type.sizeof)
    (h : packAll lengthOffset arguments s = some s') : PacksAll lengthOffset arguments s s' := by
  induction arguments generalizing s with
  | nil =>
      cases h
      exact ⟨rfl, (Int.add_zero _).symm, (Int.add_zero _).symm, fun _ _ _ _ => rfl⟩
  | cons a arguments ih =>
      obtain ⟨⟨hlow, hhigh, hvalue⟩, hrest⟩ := List.forall_mem_cons.1 hsizes
      unfold packAll at h
      cases hpack : s.pack lengthOffset a with
      | none =>
          rw [hpack] at h
          cases h
      | some s₁ =>
          rw [hpack] at h
          obtain ⟨w, -, hpacks⟩ := packs_of_pack hlow hhigh hvalue hpack
          have hlen := hpacks.length_memory hroom
          have hall := ih (hlen ▸ hroom) hrest h
          constructor
          case length_memory => exact hall.length_memory.trans hlen
          case current =>
            rw [hall.current, hpacks.current, packedSizes, packedSizes, List.map_cons,
              List.map_cons, List.sum_cons]
            omega
          case previous =>
            rw [hall.previous, hpacks.previous, List.map_cons, List.map_cons, List.sum_cons]
            omega
          case load =>
            intro offset size hlength hmembers
            obtain ⟨hmember, hmembers⟩ := List.forall_mem_cons.1 hmembers
            exact (hall.load offset size hlength hmembers).trans
              (hpacks.load_of_apart hroom hlength hmember)

end All

/-! ## Where the arguments are packed -/

theorem sum_le_packedSizes (members : List Member) :
    (members.map fun m => m.type.sizeof).sum + 5 * members.length ≤ packedSizes members := by
  induction members with
  | nil => exact Nat.le_refl _
  | cons m members ih =>
      unfold packedSizes at ih ⊢
      rw [List.length_cons, List.map_cons, List.map_cons, List.sum_cons, List.sum_cons, packedSize]
      omega

/-- What is packed to a member ends before what all of the arguments would take one behind the
other. -/
theorem generateFields_packed {as : List Action} {offset : Nat} :
    ∀ m ∈ generateFields offset as, m.offset + packedSize m.type.sizeof +
      5 * ((generateFields offset as).length - 1) ≤
        offset + packedSizes (generateFields offset as) := by
  induction as generalizing offset with
  | nil => exact nofun
  | cons a as ih =>
      cases a with
      | field name type dataOffset =>
          have hrest := sum_le_packedSizes (generateFields (offset + type.sizeof) as)
          have hsum : packedSizes (generateFields offset (.field name type dataOffset :: as)) =
              packedSize type.sizeof + packedSizes (generateFields (offset + type.sizeof) as) :=
            List.sum_cons
          have hlen : (generateFields offset (.field name type dataOffset :: as)).length =
              (generateFields (offset + type.sizeof) as).length + 1 := rfl
          refine List.forall_mem_cons.2 ⟨?_, fun m hm => ?_⟩
          · rw [hsum, hlen]
            dsimp only
            omega
          · have hm' := ih m hm
            have hpos := List.length_pos_of_mem hm
            rw [hsum, hlen]
            unfold packedSize at hm' ⊢
            omega
      | transformationAction t => exact ih
      | annotationAction name => exact ih

theorem sum_generateFields (as : List Action) (offset : Nat) :
    ((generateFields offset as).map fun m => m.type.sizeof).sum = sizeofMembers as := by
  induction as generalizing offset with
  | nil => rfl
  | cons a as ih =>
      cases a with
      | field name type dataOffset =>
          rw [generateFields, List.map_cons, List.sum_cons, ih, sizeofMembers_field]
      | transformationAction t => exact ih offset
      | annotationAction name => exact ih offset

/-! ## Actions around a transformation -/

theorem constantSizes_append (as bs : List Action) :
    constantSizes (as ++ bs) = constantSizes as + constantSizes bs := by
  induction as with
  | nil => exact (Nat.zero_add _).symm
  | cons a as ih =>
      cases a with
      | field name type offset =>
          show type.constantSize.toNat + constantSizes (as ++ bs) =
            type.constantSize.toNat + constantSizes as + constantSizes bs
          rw [ih, Nat.add_assoc]
      | transformationAction t => exact ih
      | annotationAction name => exact ih

theorem generateMatchCondition_append {as bs : List Action} {offset : Nat} {cs : List Comparison}
    (h : generateMatchCondition offset (as ++ bs) = some cs) :
    ∃ cs₁ cs₂, generateMatchCondition offset as = some cs₁ ∧
      generateMatchCondition (offset + sizeofMembers as) bs = some cs₂ := by
  induction as generalizing offset cs with
  | nil => exact ⟨[], cs, rfl, h⟩
  | cons a as ih =>
      cases a with
      | field name type dataOffset =>
          obtain ⟨rest, hrest, hcs⟩ := generateMatchCondition_field h
          obtain ⟨cs₁, cs₂, has, hbs⟩ := ih hrest
          rw [Nat.add_assoc, ← sizeofMembers_field name type dataOffset] at hbs
          rcases hcs with ⟨hinit, -⟩ | ⟨literal, c, hinit, hc, -⟩
          · refine ⟨cs₁, cs₂, ?_, hbs⟩
            rw [generateMatchCondition, hinit, has]
          · refine ⟨c :: cs₁, cs₂, ?_, hbs⟩
            rw [generateMatchCondition, hinit, has]
            dsimp only
            rw [hc]
            rfl
      | transformationAction t => exact ih h
      | annotationAction name => exact ih h

theorem around_transformation {front fields : List Action} (hfront : Sized front)
    (t : Transformation) :
    beforeTransformation (front ++ .transformationAction t :: fields) = front ∧
      behindTransformation (front ++ .transformationAction t :: fields) = fields ∧
      hasTransformation (front ++ .transformationAction t :: fields) = true := by
  induction front with
  | nil => exact ⟨rfl, rfl, rfl⟩
  | cons a front ih =>
      cases a with
      | field name type offset =>
          obtain ⟨hbefore, hbehind, hhas⟩ := ih hfront.2
          exact ⟨congrArg (List.cons _) hbefore, hbehind, hhas⟩
      | transformationAction t => exact hfront.elim
      | annotationAction name =>
          obtain ⟨hbefore, hbehind, hhas⟩ := ih hfront
          exact ⟨congrArg (List.cons _) hbefore, hbehind, hhas⟩

/-- `State::Send` transmits so many bytes of the message, with a header of its own. -/
structure Transmits (stateSend : List UInt8 → Nat → List UInt8) : Prop where
  length_eq : ∀ message size, romPacketSize ≤ size → size ≤ message.length →
    (stateSend message size).length = size
  payload : ∀ message size, romPacketSize ≤ size → size ≤ message.length →
    (stateSend message size).drop romPacketSize = (message.take size).drop romPacketSize

/-! ## Subpackets with a transformation -/

/-- The packet ends with a length. Fields of constant size are in front of the transformation, where
a length is the last, and structs of constant size behind it. The emitted members are where the
fields are. -/
structure Packet.Compresses (d : TypedDefinition) (p : Packet) (sp : Subpacket)
    (front : List Action) (t : Transformation) (fields : List Action) : Prop where
  packet : p ∈ d.packets
  headerLayout : d.LaysOut p.actions
  bodyLayout : d.LaysOut sp.actions
  mem : sp ∈ p.subpackets
  actions_eq : sp.actions = front ++ .transformationAction t :: fields
  header : PlainActions p.actions
  ends : ∃ init name object offset, p.actions = init ++ [.field name (.builtin object) offset] ∧
    object.type = .length
  frontPlain : PlainActions front
  frontSized : Sized front
  frontLength : LengthLast front
  fieldsPlain : PlainActions fields
  fieldsSized : Sized fields
  fieldsLength : NoLengths fields
  structs : ∀ m ∈ p.packedMembers sp, ∃ name inner, m.type = .struct name inner
  sizes : ∀ m ∈ p.packedMembers sp, 19 ≤ m.type.sizeof
  total : sizeofMembers fields < 2 ^ 17
  nonempty : p.packedMembers sp ≠ []
  compiles : ∃ cs, generateMatchCondition 0 p.actions = some cs
  subCompiles : ∃ cs, generateMatchCondition (sizeofMembers p.actions) sp.actions = some cs

theorem lengthOffset_cons (offset : Nat) (name : String) (type : FieldType) (dataOffset : UInt32)
    (as : List Action) :
    lengthOffset offset (.field name type dataOffset :: as) =
      if type.isLength then some offset else lengthOffset (offset + type.sizeof) as := by
  cases type with
  | struct => rfl
  | builtin object =>
      obtain ⟨type, cells, hcells⟩ := object
      cases type with
      | unsigned => rfl
      | signed => rfl
      | string => rfl
      | float => rfl
      | double => rfl
      | length => rfl
      | unixtime => rfl

theorem isSome_lengthOffset {as : List Action} {offset : Nat}
    (h : ∃ m ∈ generateFields offset as, m.type.isLength = true) :
    (lengthOffset offset as).isSome := by
  induction as generalizing offset with
  | nil =>
      obtain ⟨m, hm, -⟩ := h
      cases hm
  | cons a as ih =>
      cases a with
      | field name type dataOffset =>
          rw [lengthOffset_cons]
          by_cases hlength : type.isLength = true
          · rw [if_pos hlength]
            rfl
          · rw [if_neg hlength]
            obtain ⟨m, hm, hm'⟩ := h
            rcases List.mem_cons.1 hm with rfl | hm
            · exact absurd hm' hlength
            · exact ih ⟨m, hm, hm'⟩
      | transformationAction t => exact ih h
      | annotationAction name => exact ih h

/-- What the payload of a message with one packed argument is. -/
structure Packet.OnePayload (p : Packet) (sp : Subpacket) (front : List Action)
    (dst payload : List UInt8) : Prop where
  body : payload.drop (sizeofMembers p.actions) = p.packedBody sp dst
  behind : payload.drop (sizeofMembers p.actions + sizeofMembers front) = dst
  length_eq : payload.length = sizeofMembers p.actions + sizeofMembers front + dst.length
  -- what is not a length is as `Reset` has left it
  unchanged : ∀ m ∈ generateFields 0 p.actions ++ generateFields (sizeofMembers p.actions) front,
    m.type.isLength = false → m.get payload = m.get (p.reset sp)
  length : ∀ o, lengthOffset 0 p.actions = some o → List.load o 4 payload =
    LittleEndian.encode 4 (uint32 (sizeofMembers front + dst.length : Nat))
  -- the other lengths of the packet are those of the fields that have not been packed
  lengths : ∀ m ∈ generateFields 0 p.actions, m.type.isLength = true →
    LittleEndian.decode (m.get payload) ≤ sizeofMembers front + dst.length
  frontLength : ∀ o, lengthOffset (sizeofMembers p.actions) front = some o →
    List.load o 4 payload = LittleEndian.encode 4 (uint32 dst.length)

namespace Packet.Compresses

variable {d : TypedDefinition} {p : Packet} {sp : Subpacket} {front fields : List Action}
  {t : Transformation} (h : p.Compresses d sp front t fields)

include h

theorem sized : Sized p.actions := by
  have hne := p.numPacketBytes_ne (List.ne_nil_of_mem h.mem)
  rw [p.numPacketBytes_eq] at hne
  have hsize := sizeFrom_eq hne
  have hpos : 0 < sizeFrom 0 p.actions := by omega
  exact sized_of_sizeFrom h.header hpos

theorem before_eq : beforeTransformation sp.actions = front :=
  h.actions_eq ▸ (around_transformation h.frontSized t).1

theorem behind_eq : behindTransformation sp.actions = fields :=
  h.actions_eq ▸ (around_transformation h.frontSized t).2.1

theorem packedMembers_eq : p.packedMembers sp =
    generateFields (sizeofMembers p.actions + sizeofMembers front) fields := by
  rw [packedMembers, h.before_eq, h.behind_eq]

theorem sizeofMembers_eq :
    sizeofMembers sp.actions = sizeofMembers front + sizeofMembers fields := by
  rw [h.actions_eq, sizeofMembers_append]
  rfl

theorem constantSizes_eq :
    constantSizes sp.actions = sizeofMembers front + sizeofMembers fields := by
  rw [h.actions_eq, constantSizes_append, (sizeFrom_of_sized h.frontSized).2]
  exact congrArg _ (sizeFrom_of_sized h.fieldsSized).2

theorem sizeofWith_eq : p.sizeofWith sp =
    sizeofMembers p.actions + sizeofMembers front + sizeofMembers fields + 1024 := by
  rw [sizeofWith, h.sizeofMembers_eq, h.actions_eq, (around_transformation h.frontSized t).2.2,
    if_pos rfl, ← Nat.add_assoc]

theorem membersWith_eq : p.membersWith sp = generateFields 0 p.actions ++
    (generateFields (sizeofMembers p.actions) front ++ p.packedMembers sp) := by
  rw [membersWith, h.packedMembers_eq, h.actions_eq, generateFields_append]
  rfl

/-- The length that `Send` changes. -/
theorem exists_length : ∃ m ∈ generateFields 0 p.actions,
    lengthOffset 0 p.actions = some m.offset ∧ m.type.isLength = true := by
  obtain ⟨init, name, ⟨type, cells, hcells⟩, offset, hactions, hlength⟩ := h.ends
  have hsome : (lengthOffset 0 p.actions).isSome := by
    refine isSome_lengthOffset ?_
    rw [hactions, generateFields_append]
    refine ⟨_, List.mem_append_right _ List.mem_cons_self, ?_⟩
    cases hlength
    rfl
  obtain ⟨o, ho⟩ := Option.isSome_iff_exists.1 hsome
  obtain ⟨m, hm, rfl, hm'⟩ := exists_of_lengthOffset ho
  exact ⟨m, hm, ho, hm'⟩

/-! ### The length in front of the transformation -/

theorem storeTransformedLength_cases :
    (lengthOffset (sizeofMembers p.actions) front = none ∧
        ∀ n memory, p.storeTransformedLength sp n memory = memory) ∨
      ∃ m ∈ generateFields (sizeofMembers p.actions) front,
        lengthOffset (sizeofMembers p.actions) front = some m.offset ∧ m.type.isLength = true ∧
          ∀ n memory, p.storeTransformedLength sp n memory =
            List.store m.offset (LittleEndian.encode 4 (uint32 n)) memory := by
  unfold storeTransformedLength
  rw [h.before_eq]
  cases ho : lengthOffset (sizeofMembers p.actions) front with
  | none => exact Or.inl ⟨rfl, fun _ _ => rfl⟩
  | some o =>
      obtain ⟨m, hm, rfl, hm'⟩ := exists_of_lengthOffset ho
      exact Or.inr ⟨m, hm, rfl, hm', fun _ _ => rfl⟩

variable {n : Int} {memory : List UInt8}
  (hroom : sizeofMembers p.actions + sizeofMembers front ≤ memory.length)

include hroom

theorem length_storeTransformedLength :
    (p.storeTransformedLength sp n memory).length = memory.length := by
  rcases h.storeTransformedLength_cases with ⟨-, heq⟩ | ⟨m, hm, -, hm', heq⟩
  · rw [heq]
  · have hbound := (generateFields_bounds m hm).2
    rw [(FieldType.sizeof_of_isLength hm').1] at hbound
    rw [heq, List.length_store (by rw [LittleEndian.length_encode]; omega)]

theorem load_storeTransformedLength {offset size : Nat}
    (hapart : ∀ m ∈ generateFields (sizeofMembers p.actions) front, m.type.isLength = true →
      List.Apart offset size m.offset 4) :
    List.load offset size (p.storeTransformedLength sp n memory) =
      List.load offset size memory := by
  rcases h.storeTransformedLength_cases with ⟨-, heq⟩ | ⟨m, hm, -, hm', heq⟩
  · rw [heq]
  · have hbound := (generateFields_bounds m hm).2
    rw [(FieldType.sizeof_of_isLength hm').1] at hbound
    rw [heq]
    refine List.load_store_of_apart ?_ (by rw [LittleEndian.length_encode]; omega)
    rw [LittleEndian.length_encode]
    exact hapart m hm hm'

/-- Outside of the fields in front of the transformation nothing changes. -/
theorem load_storeTransformedLength_outside {offset size : Nat}
    (houtside : List.Apart offset size (sizeofMembers p.actions) (sizeofMembers front)) :
    List.load offset size (p.storeTransformedLength sp n memory) =
      List.load offset size memory := by
  refine h.load_storeTransformedLength hroom fun m hm hm' => ?_
  obtain ⟨hlow, hhigh⟩ := generateFields_bounds m hm
  rw [(FieldType.sizeof_of_isLength hm').1] at hhigh
  rcases houtside with houtside | houtside
  · exact Or.inl (by omega)
  · exact Or.inr (by omega)

omit hroom

variable {arguments : List Argument} (hargs : p.Arguments sp arguments)

include hargs

theorem sizes_of_arguments : ∀ a ∈ arguments, 19 ≤ a.member.type.sizeof ∧
    a.member.type.sizeof < 2 ^ 17 ∧ a.value.length = a.member.type.sizeof := by
  intro a ha
  have hm : a.member ∈ p.packedMembers sp := hargs.members ▸ List.mem_map_of_mem ha
  have hbound := (generateFields_bounds a.member (h.packedMembers_eq ▸ hm))
  have htotal := h.total
  exact ⟨h.sizes _ hm, by omega, hargs.sizes a ha⟩

/-- Every argument is packed behind the fields in front of the transformation, and ends before what
the arguments would take one behind the other. -/
theorem bounds_of_arguments : ∀ a ∈ arguments,
    sizeofMembers p.actions + sizeofMembers front ≤ a.member.offset ∧
      a.member.offset + packedSize a.member.type.sizeof + 5 * (arguments.length - 1) ≤
        sizeofMembers p.actions + sizeofMembers front + packedSizes (p.packedMembers sp) := by
  intro a ha
  have hm : a.member ∈ p.packedMembers sp := hargs.members ▸ List.mem_map_of_mem ha
  have hlen : arguments.length = (p.packedMembers sp).length := by
    rw [← hargs.members, List.length_map]
  rw [hlen]
  rw [h.packedMembers_eq] at hm ⊢
  exact ⟨(generateFields_bounds a.member hm).1, generateFields_packed a.member hm⟩

/-! ### What is sent -/

variable {stateSend : List UInt8 → Nat → List UInt8} (hsend : Transmits stateSend)

theorem packsAll_of_packAll {m : Member} (hm : m ∈ generateFields 0 p.actions)
    (hlength : m.type.isLength = true) {s : Packing}
    (hs : Packing.packAll m.offset arguments ⟨0, 0, p.reset sp⟩ = some s) :
    Packing.PacksAll m.offset arguments ⟨0, 0, p.reset sp⟩ s := by
  have hbound := (generateFields_bounds m hm).2
  have hlen : (p.reset sp).length = p.sizeofWith sp := reset_holds.length_eq
  rw [(FieldType.sizeof_of_isLength hlength).1] at hbound
  rw [h.sizeofWith_eq] at hlen
  exact Packing.packsAll_of_packAll (by dsimp only; omega) (h.sizes_of_arguments hargs) hs

/-- `Send` transmits the object up to the end of what the packed arguments would take one behind the
other. -/
theorem sendPacked_eq {m : Member} (hm : m ∈ generateFields 0 p.actions)
    (hoffset : lengthOffset 0 p.actions = some m.offset) (hlength : m.type.isLength = true)
    {s : Packing} (hs : Packing.packAll m.offset arguments ⟨0, 0, p.reset sp⟩ = some s) :
    p.sendPacked sp stateSend (List.replicate romPacketSize 0) (p.reset sp) arguments =
      if sizeofMembers p.actions + sizeofMembers front + packedSizes (p.packedMembers sp) ≤
          p.sizeofWith sp then
        some (stateSend (List.replicate romPacketSize 0 ++
          p.storeTransformedLength sp (packedSizes (p.packedMembers sp)) s.memory)
            (romPacketSize + (sizeofMembers p.actions + sizeofMembers front +
              packedSizes (p.packedMembers sp))))
      else none := by
  have hall := h.packsAll_of_packAll hargs hm hlength hs
  have hreset : (p.reset sp).length = p.sizeofWith sp := reset_holds.length_eq
  -- the two counters of the emitted code have the sizes after packing and before
  have hcurrent : s.iCurrentLength = packedSizes (p.packedMembers sp) := by
    rw [hall.current, hargs.members, Int.zero_add]
  have hprevious : s.iPreviousLength = sizeofMembers fields := by
    rw [hall.previous, hargs.members, h.packedMembers_eq, sum_generateFields, Int.zero_add]
  have hmemory : s.memory.length = p.sizeofWith sp := hall.length_memory.trans hreset
  have hroom : sizeofMembers p.actions + sizeofMembers front ≤ s.memory.length := by
    rw [hmemory, h.sizeofWith_eq]
    omega
  have hlen := h.length_storeTransformedLength (n := packedSizes (p.packedMembers sp)) hroom
  -- the size is that of the message, with the packed sizes for the fields
  have hsize : (romPacketSize + constantSizes p.actions + constantSizes sp.actions -
      s.iPreviousLength + s.iCurrentLength : Int).toNat = romPacketSize +
        (sizeofMembers p.actions + sizeofMembers front + packedSizes (p.packedMembers sp)) := by
    rw [hcurrent, hprevious, h.constantSizes_eq, (sizeFrom_of_sized h.sized).2]
    omega
  unfold sendPacked
  rw [hoffset]
  dsimp only
  rw [hs]
  dsimp only
  rw [hsize, hcurrent, List.length_append, List.length_replicate, hlen, hmemory]
  by_cases hle : sizeofMembers p.actions + sizeofMembers front +
      packedSizes (p.packedMembers sp) ≤ p.sizeofWith sp
  · rw [if_pos hle, if_pos (Nat.add_le_add_left hle _)]
  · rw [if_neg hle, if_neg (fun hle' => hle (Nat.le_of_add_le_add_left hle'))]

include hsend

omit h hargs in
theorem drop_sent {memory : List UInt8} {size : Nat} (hsize : size ≤ memory.length) :
    (stateSend (List.replicate romPacketSize 0 ++ memory) (romPacketSize + size)).length =
        romPacketSize + size ∧
      (stateSend (List.replicate romPacketSize 0 ++ memory) (romPacketSize + size)).drop
        romPacketSize = memory.take size := by
  have hroom : romPacketSize + size ≤ (List.replicate romPacketSize 0 ++ memory).length := by
    rw [List.length_append, List.length_replicate]
    omega
  refine ⟨hsend.length_eq _ _ (Nat.le_add_right _ _) hroom, ?_⟩
  rw [hsend.payload _ _ (Nat.le_add_right _ _) hroom, List.drop_take, Nat.add_sub_cancel_left]
  exact congrArg (List.take size) (List.drop_left' List.length_replicate)

/-- When `Send` transmits a frame, its payload is the object up to the end of what the packed
arguments would take one behind the other. -/
theorem of_sendPacked {frame : List UInt8}
    (hframe : p.sendPacked sp stateSend (List.replicate romPacketSize 0) (p.reset sp) arguments =
      some frame) :
    ∃ m ∈ generateFields 0 p.actions, ∃ s, lengthOffset 0 p.actions = some m.offset ∧
      m.type.isLength = true ∧
      Packing.packAll m.offset arguments ⟨0, 0, p.reset sp⟩ = some s ∧
      sizeofMembers p.actions + sizeofMembers front + packedSizes (p.packedMembers sp) ≤
        s.memory.length ∧
      frame.length = romPacketSize +
        (sizeofMembers p.actions + sizeofMembers front + packedSizes (p.packedMembers sp)) ∧
      frame.drop romPacketSize =
        (p.storeTransformedLength sp (packedSizes (p.packedMembers sp)) s.memory).take
          (sizeofMembers p.actions + sizeofMembers front + packedSizes (p.packedMembers sp)) := by
  obtain ⟨m, hm, hoffset, hlength⟩ := h.exists_length
  cases hs : Packing.packAll m.offset arguments ⟨0, 0, p.reset sp⟩ with
  | none =>
      unfold sendPacked at hframe
      rw [hoffset] at hframe
      dsimp only at hframe
      rw [hs] at hframe
      cases hframe
  | some s =>
      have hmemory : s.memory.length = p.sizeofWith sp :=
        (h.packsAll_of_packAll hargs hm hlength hs).length_memory.trans reset_holds.length_eq
      rw [h.sendPacked_eq hargs hm hoffset hlength hs] at hframe
      split at hframe
      next hle =>
        cases hframe
        rw [← hmemory] at hle
        have hroom : sizeofMembers p.actions + sizeofMembers front ≤ s.memory.length := by omega
        have hlen := h.length_storeTransformedLength (n := packedSizes (p.packedMembers sp)) hroom
        obtain ⟨hframe, hpayload⟩ := drop_sent hsend (hlen.symm ▸ hle)
        exact ⟨m, hm, s, hoffset, hlength, hs, hle, hframe, hpayload⟩
      next => cases hframe

/-- Of two arguments or more, the last bytes are those that `Reset` has left behind all members. -/
theorem zeros_of_sendPacked (hmany : 2 ≤ arguments.length) {frame : List UInt8}
    (hframe : p.sendPacked sp stateSend (List.replicate romPacketSize 0) (p.reset sp) arguments =
      some frame) :
    ∃ packed, packed.length < 2 ^ 23 ∧
      (frame.drop romPacketSize).drop (sizeofMembers p.actions + sizeofMembers front) =
        packed ++ List.replicate 5 0 := by
  obtain ⟨m, hm, s, -, hlength, hs, hle, -, hpayload⟩ := h.of_sendPacked hargs hsend hframe
  have hall := h.packsAll_of_packAll hargs hm hlength hs
  have hmemory : s.memory.length = p.sizeofWith sp := hall.length_memory.trans reset_holds.length_eq
  have hsize := h.sizeofWith_eq
  have htotal := h.total
  have hnumber : arguments.length = (p.packedMembers sp).length := by
    rw [← hargs.members, List.length_map]
  have hsum := sum_le_packedSizes (p.packedMembers sp)
  rw [← hnumber, h.packedMembers_eq, sum_generateFields, ← h.packedMembers_eq] at hsum
  -- each argument takes five bytes more, and the last of these are behind all members
  obtain ⟨size, hpacked⟩ : ∃ size, packedSizes (p.packedMembers sp) = size + 5 :=
    ⟨packedSizes (p.packedMembers sp) - 5, by omega⟩
  let start := sizeofMembers p.actions + sizeofMembers front
  let memory := p.storeTransformedLength sp (packedSizes (p.packedMembers sp)) s.memory
  have hzeros : List.load (start + size) 5 memory = List.replicate 5 0 := by
    -- no argument and no length is stored there
    rw [h.load_storeTransformedLength_outside (by omega) (Or.inr (by omega)), hall.load]
    · refine load_reset (by omega) fun m' hm' _ => Or.inr ?_
      have hbound := membersWith_bounds m' hm'
      rw [h.sizeofMembers_eq] at hbound
      omega
    · have hbound := (generateFields_bounds m hm).2
      rw [(FieldType.sizeof_of_isLength hlength).1] at hbound
      exact Or.inr (by omega)
    · intro a ha
      obtain ⟨-, hbound⟩ := h.bounds_of_arguments hargs a ha
      exact Or.inr (by omega)
  refine ⟨List.load start size memory, ?_, ?_⟩
  · rw [List.load, List.length_take]
    omega
  · rw [hpayload, List.drop_take, Nat.add_sub_cancel_left, ← hzeros, ← List.load_add, ← hpacked]
    rfl

omit hargs hsend

/-! ### One argument -/

section One

variable {a : Argument} (hone : p.Arguments sp [a])

include hone

/-- The only argument has all of the size behind the transformation. -/
theorem one_member : a.member.offset = sizeofMembers p.actions + sizeofMembers front ∧
    a.member.type.sizeof = sizeofMembers fields ∧
      packedSizes (p.packedMembers sp) = packedSize (sizeofMembers fields) := by
  have hmembers : [a.member] = p.packedMembers sp := hone.members
  have hsum : ((p.packedMembers sp).map fun m => m.type.sizeof).sum = sizeofMembers fields := by
    rw [h.packedMembers_eq, sum_generateFields]
  rw [← hmembers, List.map_singleton, List.sum_singleton] at hsum
  have hpacked : packedSizes (p.packedMembers sp) = packedSize a.member.type.sizeof := by
    rw [← hmembers, packedSizes, List.map_singleton, List.sum_singleton]
  obtain ⟨hlow, hhigh⟩ := h.bounds_of_arguments hone a List.mem_cons_self
  rw [hpacked, List.length_singleton] at hhigh
  exact ⟨by omega, hsum, hsum ▸ hpacked⟩

/-- It is packed. -/
theorem exists_packs (lengthOffset : Nat) : ∃ w s, Pack.pack a.value = some w ∧
    Packing.packAll lengthOffset [a] ⟨0, 0, p.reset sp⟩ = some s ∧
      Packing.Packs lengthOffset a ⟨0, 0, p.reset sp⟩ s w.dst := by
  obtain ⟨hoffset, hsize, -⟩ := h.one_member hone
  obtain ⟨hlow, hhigh, hvalue⟩ := h.sizes_of_arguments hone a List.mem_cons_self
  have hroom : a.member.offset + packedSize a.member.type.sizeof ≤ (p.reset sp).length := by
    have htotal := h.total
    rw [reset_holds.length_eq, h.sizeofWith_eq, hoffset, hsize, packedSize]
    omega
  obtain ⟨s, hs⟩ := Packing.exists_pack (s := ⟨0, 0, p.reset sp⟩) hlow hhigh hvalue hroom
  obtain ⟨w, hw, hpacks⟩ := Packing.packs_of_pack hlow hhigh hvalue hs
  refine ⟨w, s, hw, ?_, hpacks⟩
  rw [Packing.packAll, hs]
  rfl

variable {m : Member} (hm : m ∈ generateFields 0 p.actions) (hlength : m.type.isLength = true)
  {s : Packing} {dst : List UInt8} (hpacks : Packing.Packs m.offset a ⟨0, 0, p.reset sp⟩ s dst)

include hm hlength hpacks

theorem length_packed : s.memory.length = p.sizeofWith sp ∧
    sizeofMembers p.actions + sizeofMembers front + dst.length ≤ s.memory.length ∧
      m.offset + 4 ≤ sizeofMembers p.actions := by
  obtain ⟨hoffset, hsize, -⟩ := h.one_member hone
  have hbound := (generateFields_bounds m hm).2
  have hreset : (p.reset sp).length = p.sizeofWith sp := reset_holds.length_eq
  have hroom := hpacks.room
  rw [(FieldType.sizeof_of_isLength hlength).1] at hbound
  rw [hoffset, ← hpacks.length_eq] at hroom
  have hwith := h.sizeofWith_eq
  have hmemory : s.memory.length = p.sizeofWith sp :=
    (hpacks.length_memory (by dsimp only; omega)).trans hreset
  dsimp only at hroom
  exact ⟨hmemory, by omega, by omega⟩

/-- In front of what is packed nothing but the lengths has changed. -/
theorem load_packed {n : Int} {offset size : Nat}
    (hend : offset + size ≤ sizeofMembers p.actions + sizeofMembers front)
    (hapart : List.Apart offset size m.offset 4)
    (hfront : ∀ m' ∈ generateFields (sizeofMembers p.actions) front, m'.type.isLength = true →
      List.Apart offset size m'.offset 4) :
    List.load offset size (p.storeTransformedLength sp n s.memory) =
      List.load offset size (p.reset sp) := by
  obtain ⟨hmemory, hroom, hbound⟩ := h.length_packed hone hm hlength hpacks
  obtain ⟨hoffset, -, -⟩ := h.one_member hone
  have hreset : (p.reset sp).length = p.sizeofWith sp := reset_holds.length_eq
  rw [h.load_storeTransformedLength (by omega) hfront]
  exact hpacks.load_of_apart (by dsimp only; omega) hapart (Or.inl (by omega))

/-- The length of the packet counts the packed bytes. -/
theorem load_length : List.load m.offset 4 s.memory =
    LittleEndian.encode 4 (uint32 (sizeofMembers front + dst.length : Nat)) := by
  obtain ⟨hmemory, hroom, hbound⟩ := h.length_packed hone hm hlength hpacks
  obtain ⟨hoffset, hsize, -⟩ := h.one_member hone
  have hreset : (p.reset sp).length = p.sizeofWith sp := reset_holds.length_eq
  have hdst : a.member.offset + dst.length ≤ (p.reset sp).length := by
    rw [hoffset, hreset, ← hmemory]
    exact hroom
  have hvalue : LittleEndian.decode (List.load m.offset 4
      (List.store a.member.offset dst (p.reset sp))) =
        (sizeofMembers front + sizeofMembers fields) % 256 ^ 4 := by
    have hfilled : m.get (p.reset sp) = _ := reset_holds.lengths m hm hlength
    rw [Member.get, (FieldType.sizeof_of_isLength hlength).1, h.constantSizes_eq] at hfilled
    rw [List.load_store_of_apart (Or.inl (by omega)) hdst, hfilled,
      LittleEndian.decode_encode_mod]
  have hstore := List.length_store hdst
  rw [hpacks.memory, hvalue, hsize]
  have hlen := hpacks.length_eq
  rw [hsize] at hlen
  have hsum : uint32 (((sizeofMembers front + sizeofMembers fields) % 256 ^ 4 : Nat) -
      (sizeofMembers fields : Int) + (packedSize (sizeofMembers fields) : Nat)) =
        uint32 (sizeofMembers front + dst.length : Nat) := by
    rw [hlen]
    unfold uint32
    omega
  rw [hsum]
  exact List.load_store_of_length (LittleEndian.length_encode 4 _) (by dsimp only; omega)

/-- What is packed is behind the fields in front of the transformation. -/
theorem load_behind {n : Int} : List.load (sizeofMembers p.actions + sizeofMembers front) dst.length
    (p.storeTransformedLength sp n s.memory) = dst := by
  obtain ⟨hmemory, hroom, hbound⟩ := h.length_packed hone hm hlength hpacks
  obtain ⟨hoffset, -, -⟩ := h.one_member hone
  have hreset : (p.reset sp).length = p.sizeofWith sp := reset_holds.length_eq
  have hdst : sizeofMembers p.actions + sizeofMembers front + dst.length ≤ (p.reset sp).length := by
    rw [hreset, ← hmemory]
    exact hroom
  have hstore := List.length_store hdst
  rw [h.load_storeTransformedLength_outside (by omega) (Or.inr (Nat.le_refl _)), hpacks.memory,
    hoffset, List.load_store_of_apart _ (by rw [LittleEndian.length_encode, hstore]; omega)]
  · exact List.load_store_self hdst
  · exact Or.inr (by rw [LittleEndian.length_encode]; omega)

/-- The fields in front of the transformation are as without the packed bytes. -/
theorem load_front {n : Int} : List.load (sizeofMembers p.actions) (sizeofMembers front)
    (p.storeTransformedLength sp n s.memory) =
      List.load (sizeofMembers p.actions) (sizeofMembers front)
        (p.storeTransformedLength sp n (p.reset sp)) := by
  obtain ⟨hmemory, hroom, hbound⟩ := h.length_packed hone hm hlength hpacks
  obtain ⟨hoffset, -, -⟩ := h.one_member hone
  have hreset : (p.reset sp).length = p.sizeofWith sp := reset_holds.length_eq
  have hfront : List.load (sizeofMembers p.actions) (sizeofMembers front) s.memory =
      List.load (sizeofMembers p.actions) (sizeofMembers front) (p.reset sp) :=
    hpacks.load_of_apart (by dsimp only; omega) (Or.inr hbound) (Or.inl (by omega))
  rcases h.storeTransformedLength_cases with ⟨-, heq⟩ | ⟨m', hm', -, hlength', heq⟩
  · rw [heq, heq]
    exact hfront
  · have hbound' := (generateFields_bounds m' hm').2
    rw [(FieldType.sizeof_of_isLength hlength').1] at hbound'
    rw [heq, heq]
    exact List.load_store_congr hfront (by rw [LittleEndian.length_encode]; omega)
      (by rw [LittleEndian.length_encode]; omega)

omit hone hm hlength hpacks in
/-- A member that is not a length is apart from those that are. -/
theorem apart_of_not_length {m m' : Member}
    (hm : m ∈ generateFields 0 p.actions ++ generateFields (sizeofMembers p.actions) front)
    (hm' : m' ∈ generateFields 0 p.actions ++ generateFields (sizeofMembers p.actions) front)
    (hnot : m.type.isLength = false) (hlength : m'.type.isLength = true) :
    List.Apart m.offset m.type.sizeof m'.offset 4 := by
  have hwith : ∀ m ∈ generateFields 0 p.actions ++ generateFields (sizeofMembers p.actions) front,
      m ∈ p.membersWith sp := by
    intro m hm
    rw [h.membersWith_eq, ← List.append_assoc]
    exact List.mem_append_left _ hm
  rw [← (FieldType.sizeof_of_isLength hlength).1]
  refine membersWith_apart (hwith m hm) (hwith m' hm') ?_
  rintro rfl
  cases hnot.symm.trans hlength

/-- The payload of the message. -/
theorem onePayload (hfirst : lengthOffset 0 p.actions = some m.offset) :
    p.OnePayload sp front dst ((p.storeTransformedLength sp dst.length s.memory).take
      (sizeofMembers p.actions + sizeofMembers front + dst.length)) := by
  -- what is packed is stored behind the front, and no member of the front is touched by it
  obtain ⟨hmemory, hroom, hbound⟩ := h.length_packed hone hm hlength hpacks
  have hroom' : sizeofMembers p.actions + sizeofMembers front ≤ s.memory.length := by omega
  have hlen := h.length_storeTransformedLength (n := dst.length) hroom'
  have hbehind := h.load_behind hone hm hlength hpacks (n := dst.length)
  have hfront := h.load_front hone hm hlength hpacks (n := dst.length)
  constructor
  case body =>
    rw [List.drop_take, Nat.add_assoc, Nat.add_sub_cancel_left, packedBody, h.before_eq, ← hfront]
    refine Eq.trans ?_ (congrArg _ hbehind)
    exact List.load_add _ _ _ _
  case behind =>
    rw [List.drop_take, Nat.add_sub_cancel_left]
    exact hbehind
  case length_eq =>
    rw [List.length_take]
    omega
  case unchanged =>
    intro m' hm' hnot
    have hend : m'.offset + m'.type.sizeof ≤ sizeofMembers p.actions + sizeofMembers front := by
      rcases List.mem_append.1 hm' with hm' | hm'
      · have hbound' := (generateFields_bounds m' hm').2
        omega
      · exact (generateFields_bounds m' hm').2
    rw [Member.get, List.load_take (by omega)]
    refine h.load_packed hone hm hlength hpacks hend ?_ fun m'' hm'' hlength'' => ?_
    · exact h.apart_of_not_length hm' (List.mem_append_left _ hm) hnot hlength
    · exact h.apart_of_not_length hm' (List.mem_append_right _ hm'') hnot hlength''
  case length =>
    intro o ho
    obtain rfl := Option.some.inj (hfirst.symm.trans ho)
    rw [List.load_take (by omega),
      h.load_storeTransformedLength_outside hroom' (Or.inl hbound)]
    exact h.load_length hone hm hlength hpacks
  case lengths =>
    intro m' hm' hlength'
    have hbound' := (generateFields_bounds m' hm').2
    rw [(FieldType.sizeof_of_isLength hlength').1] at hbound'
    rw [Member.get, (FieldType.sizeof_of_isLength hlength').1, List.load_take (by omega)]
    -- the length of the packet is changed by `Send`, and any other one by `Reset` only
    by_cases heq : m' = m
    · rw [heq, h.load_storeTransformedLength_outside hroom' (Or.inl hbound),
        h.load_length hone hm hlength hpacks, LittleEndian.decode_encode_mod]
      unfold uint32
      omega
    · have hwith : ∀ m ∈ generateFields 0 p.actions, m ∈ p.membersWith sp :=
        fun m hm => List.mem_append_left _ hm
      have hapart := membersWith_apart (hwith m' hm') (hwith m hm) heq
      have hvalue : m'.get (p.reset sp) = _ := reset_holds.lengths m' hm' hlength'
      rw [(FieldType.sizeof_of_isLength hlength').1, (FieldType.sizeof_of_isLength hlength).1]
        at hapart
      rw [Member.get, (FieldType.sizeof_of_isLength hlength').1, h.constantSizes_eq] at hvalue
      rw [h.load_packed hone hm hlength hpacks (by omega) hapart fun m'' hm'' _ =>
        Or.inl (Nat.le_trans (by omega) (generateFields_bounds m'' hm'').1), hvalue,
        LittleEndian.decode_encode_mod]
      have hsize := (h.one_member hone).2.1
      have hdst := hpacks.length_eq
      rw [hsize, packedSize] at hdst
      omega
  case frontLength =>
    intro o ho
    have hbound' : o + 4 ≤ sizeofMembers p.actions + sizeofMembers front := by
      obtain ⟨m', hm', rfl, hlength'⟩ := exists_of_lengthOffset ho
      have hbound' := (generateFields_bounds m' hm').2
      rwa [(FieldType.sizeof_of_isLength hlength').1] at hbound'
    rw [List.load_take (by omega)]
    rcases h.storeTransformedLength_cases with ⟨hnone, -⟩ | ⟨m', -, hsome, -, heq⟩
    · cases hnone.symm.trans ho
    · obtain rfl := Option.some.inj (hsome.symm.trans ho)
      rw [heq]
      exact List.load_store_of_length (LittleEndian.length_encode 4 _) (by omega)

omit hm hlength hpacks

/-- One argument is always transmitted. -/
theorem sendPacked_one (hsend : Transmits stateSend) :
    ∃ w frame, Pack.pack a.value = some w ∧
      p.sendPacked sp stateSend (List.replicate romPacketSize 0) (p.reset sp) [a] = some frame ∧
      frame.length = romPacketSize +
        (sizeofMembers p.actions + sizeofMembers front + w.dst.length) ∧
      p.OnePayload sp front w.dst (frame.drop romPacketSize) := by
  obtain ⟨m, hm, hfirst, hlength⟩ := h.exists_length
  obtain ⟨w, s, hw, hs, hpacks⟩ := h.exists_packs hone m.offset
  obtain ⟨hmemory, hroom, -⟩ := h.length_packed hone hm hlength hpacks
  obtain ⟨-, hsize, hsizes⟩ := h.one_member hone
  have hpacked : packedSizes (p.packedMembers sp) = w.dst.length := by
    rw [hsizes, ← hsize, hpacks.length_eq]
  have hroom' : sizeofMembers p.actions + sizeofMembers front ≤ s.memory.length := by omega
  have hlen := h.length_storeTransformedLength (n := w.dst.length) hroom'
  obtain ⟨hframe, hpayload⟩ := drop_sent hsend (hlen.symm ▸ hroom)
  have hsent : p.sendPacked sp stateSend (List.replicate romPacketSize 0) (p.reset sp) [a] = _ :=
    h.sendPacked_eq hone hm hfirst hlength hs
  rw [hpacked, if_pos (hmemory ▸ hroom)] at hsent
  refine ⟨w, _, hw, hsent, hframe, ?_⟩
  rw [hpayload]
  exact h.onePayload hone hm hlength hpacks hfirst

end One

end Packet.Compresses

end ProtocolDefinition

end OpenRom
