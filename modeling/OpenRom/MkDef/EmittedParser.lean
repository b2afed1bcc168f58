import OpenRom.MkDef.ParserText
import OpenRom.Protocol.Offsets
import OpenRom.Protocol.Requests

/-!
# The parser that is emitted

The blocks of `generateParser` are the emitted ones where nothing was added to the types of fields,
so that the members are where the fields are, and where no criterium is cut at the end of its array
(`TypedDefinition.Emits`). Then the text that is printed has all of the conditions (`Emits.text`),
and these compare the members of the structs that are emitted (`Emits.offsetof_emitted` and
`Emits.offsetof_emittedWith`). For such a parser the results about the blocks are results about the
emitted code.
-/

set_option autoImplicit false

namespace OpenRom

namespace ProtocolDefinition

/-! ## Text that is not cut -/

/-- The criterium of the subpacket stands whole in its array. -/
def SubpacketBlock.Whole (p : Packet) (block : SubpacketBlock) : Prop :=
  ∀ sp, p.subpackets[block.index]? = some sp →
    (andText.intercalate (comparisonTexts (p.subpacketName sp) (sizeofMembers p.actions) sp.actions
      block.conditions)).length < 1024

/-- The criteria of the packet and of its subpackets stand whole in their array, and the names of
the subpackets in theirs. -/
def PacketBlock.Whole (ps : List Packet) (block : PacketBlock) : Prop :=
  ∀ p, ps[block.index]? = some p →
    (andText.intercalate (comparisonTexts (nameOf p.name) 0 p.actions block.conditions)).length <
        1024 ∧
      (∀ sp ∈ p.subpackets, (p.subpacketName sp).length < 1024) ∧
      ∀ b ∈ block.subpackets, b.Whole p

end ProtocolDefinition

open ProtocolDefinition in
/-- The blocks say what the emitted parser does: it compiles, nothing was added to the types of the
fields, all sizes are `int`s, and no array of the generator is too short. -/
structure TypedDefinition.Emits (d : TypedDefinition) (parser : List PacketBlock) : Prop where
  generates : generateParser d.toProtocolDefinition = some parser
  header : ∀ p ∈ d.packets, d.LaysOut p.actions
  body : ∀ p ∈ d.packets, ∀ sp ∈ p.subpackets, d.LaysOut sp.actions
  sizes : ∀ p ∈ d.packets, constantSizes p.actions < 2 ^ 31 ∧
    ∀ sp ∈ p.subpackets, constantSizes sp.actions < 2 ^ 31
  whole : ∀ b ∈ parser, b.Whole d.packets

namespace ProtocolDefinition

/-- The text of the conditions. -/
def wholeText (p : Packet) (sPacketName : List UInt8) (start : Nat) (as : List Action)
    (conditions : List Condition) : List UInt8 :=
  conditions.flatMap (Condition.text p sPacketName) ++
    andText.intercalate (comparisonTexts sPacketName start as conditions)

section Text

variable {sPacketName : List UInt8} {start : Nat} {as : List Action} {conditions : List Condition}
  (h : (andText.intercalate (comparisonTexts sPacketName start as conditions)).length < 1024)

include h

/-- The last comparison begins inside of the array when the criterium ends there. -/
theorem lastPlace_of_whole :
    lastPlace (comparisonTexts sPacketName start as conditions) ≤ 1024 := by
  obtain ⟨last, hlast⟩ :=
    List.dropLast_prefix ((comparisonTexts sPacketName start as conditions).intersperse andText)
  rw [List.intercalate, ← hlast, List.flatten_append, List.length_append] at h
  rw [lastPlace]
  omega

theorem conditionsText_of_whole (p : Packet) :
    conditionsText p sPacketName start as conditions =
      wholeText p sPacketName start as conditions := by
  rw [conditionsText, wholeText, List.take_of_length_le (Nat.le_of_lt_succ h)]

end Text

theorem PacketBlock.Whole.fits {ps : List Packet} {block : PacketBlock} (h : block.Whole ps) :
    block.Fits ps := by
  intro p hp
  obtain ⟨hwhole, hnames, hblocks⟩ := h p hp
  exact ⟨lastPlace_of_whole hwhole, hnames,
    fun b hb sp hsp => lastPlace_of_whole (hblocks b hb sp hsp)⟩

end ProtocolDefinition

open ProtocolDefinition in
/-- The generator prints the blocks, with all of their conditions. -/
theorem TypedDefinition.Emits.text {d : TypedDefinition} {parser : List PacketBlock}
    (h : d.Emits parser) :
    d.writeParser = .ok (d.parserText parser) ∧
      ∀ b ∈ parser, ∀ p, d.packets[b.index]? = some p →
        conditionsText p (ProtocolDefinition.nameOf p.name) 0 p.actions b.conditions =
            wholeText p (ProtocolDefinition.nameOf p.name) 0 p.actions b.conditions ∧
          ∀ b' ∈ b.subpackets, ∀ sp, p.subpackets[b'.index]? = some sp →
            conditionsText p (p.subpacketName sp) (sizeofMembers p.actions) sp.actions
                b'.conditions =
              wholeText p (p.subpacketName sp) (sizeofMembers p.actions) sp.actions
                b'.conditions := by
  have hsizes : d.SizesFit := fun p hp =>
    ⟨Nat.lt_trans (h.sizes p hp).1 (by decide), fun sp hsp =>
      Nat.lt_trans ((h.sizes p hp).2 sp hsp) (by decide)⟩
  refine ⟨(writeParser_iff h.generates hsizes).1.2 fun b hb => (h.whole b hb).fits, ?_⟩
  intro b hb p hp
  obtain ⟨hwhole, -, hblocks⟩ := h.whole b hb p hp
  exact ⟨conditionsText_of_whole hwhole p, fun b' hb' sp hsp =>
    conditionsText_of_whole (hblocks b' hb' sp hsp) p⟩

namespace ProtocolDefinition

/-! ## Members of the emitted structs -/

/-- A member is that of a field, behind those of the fields in front of it. -/
theorem exists_of_getElem?_generateFields {as : List Action} {offset j : Nat} {m : Member}
    (h : (generateFields offset as)[j]? = some m) :
    ∃ front back name dataOffset, as = front ++ .field name m.type dataOffset :: back ∧
      numFields front = j ∧ m.offset = offset + sizeofMembers front := by
  induction as generalizing offset j with
  | nil => cases h
  | cons a as ih =>
      cases a with
      | field name type dataOffset =>
          cases j with
          | zero =>
              cases h
              exact ⟨[], as, name, dataOffset, rfl, rfl, rfl⟩
          | succ j =>
              obtain ⟨front, back, name', dataOffset', rfl, rfl, hoffset⟩ := ih h
              refine ⟨.field name type dataOffset :: front, back, name', dataOffset', rfl, rfl, ?_⟩
              rw [hoffset, sizeofMembers_field, Nat.add_assoc]
      | transformationAction t =>
          obtain ⟨front, back, name', dataOffset', rfl, hnum, hoffset⟩ := ih h
          exact ⟨.transformationAction t :: front, back, name', dataOffset', rfl, hnum, hoffset⟩
      | annotationAction name =>
          obtain ⟨front, back, name', dataOffset', rfl, hnum, hoffset⟩ := ih h
          exact ⟨.annotationAction name :: front, back, name', dataOffset', rfl, hnum, hoffset⟩

theorem length_generateFields (as : List Action) (offset : Nat) :
    (generateFields offset as).length = numFields as := by
  induction as generalizing offset with
  | nil => rfl
  | cons a as ih =>
      cases a with
      | field name type dataOffset => exact congrArg (· + 1) (ih _)
      | transformationAction t => exact ih offset
      | annotationAction name => exact ih offset

theorem AsEmittedFields.append_left {types : List StructType} {as bs : List Action}
    (h : AsEmittedFields types (as ++ bs)) : AsEmittedFields types as := by
  induction as with
  | nil => trivial
  | cons a as ih =>
      cases a with
      | field name type dataOffset => exact ⟨h.1, ih h.2⟩
      | transformationAction t => exact ih h
      | annotationAction name => exact ih h

theorem membersSize_packerKludge (scope : Scope) (as : List Action) :
    membersSize scope (packerKludge as) =
      some (if hasTransformation as then 1024 else 0) := by
  induction as with
  | nil => rfl
  | cons a as ih =>
      cases a with
      | field name type dataOffset => exact ih
      | transformationAction t => rfl
      | annotationAction name => exact ih

end ProtocolDefinition

namespace TypedDefinition

open ProtocolDefinition

section Layout

variable {d : TypedDefinition} {as bs : List Action} {scope : Scope}

theorem LaysOut.append_left (h : d.LaysOut (as ++ bs)) : d.LaysOut as :=
  ⟨h.names, h.compiles, h.asEmitted.append_left⟩

variable (hscope : declareStructs [] (generateTypes d.types) = some scope)

include hscope

/-- The members take what the fields take. -/
theorem LaysOut.membersSize (h : d.LaysOut as) (hfields : ClonedFields d.types none as)
    (sPrefix : String) :
    membersSize scope (declarations sPrefix as) = some (sizeofMembers as) :=
  membersSize_of_asEmitted h.names hscope d.cloned_types List.prefix_rfl hfields rfl h.asEmitted
    sPrefix

/-- The offset of a member in a struct that has more members in front and behind. -/
theorem LaysOut.offsetof (h : d.LaysOut as) (hfields : ClonedFields d.types none as)
    (sPrefix : String) (front back : List Declaration) {offset : Nat}
    (hfront : ProtocolDefinition.membersSize scope front = some (romPacketSize + offset))
    (hback : (ProtocolDefinition.membersSize scope back).isSome) {j : Nat} {m : Member}
    (hm : (generateFields offset as)[j]? = some m) :
    ProtocolDefinition.offsetof scope (front ++ (declarations sPrefix as ++ back))
      (front.length + j) = some (romPacketSize + m.offset) := by
  obtain ⟨before, after, name, dataOffset, rfl, rfl, hoffset⟩ :=
    exists_of_getElem?_generateFields hm
  have hall := h.membersSize hscope hfields sPrefix
  have hbefore := h.append_left.membersSize hscope hfields.append_left sPrefix
  obtain ⟨rest, hrest⟩ := Option.isSome_iff_exists.1 hback
  have hsome : (ProtocolDefinition.membersSize scope (front ++ (declarations sPrefix (before ++
      .field name m.type dataOffset :: after) ++ back))).isSome :=
    Option.isSome_iff_exists.2 ⟨_, membersSize_append.2 ⟨_, _, hfront,
      membersSize_append.2 ⟨_, _, hall, hrest, rfl⟩, rfl⟩⟩
  have hsplit : front ++ (declarations sPrefix (before ++ .field name m.type dataOffset :: after) ++
      back) = (front ++ declarations sPrefix before) ++
        m.type.declare (sPrefix ++ name) :: (declarations sPrefix after ++ back) := by
    rw [declarations_append]
    simp only [declarations, List.append_assoc, List.cons_append]
  rw [hsplit] at hsome ⊢
  obtain ⟨k, hk, heq⟩ := offsetof_append (i := front.length + numFields before)
    (by rw [List.length_append, length_declarations]) hsome
  obtain ⟨a, b, ha, hb, rfl⟩ := membersSize_append.1 hk
  cases hfront.symm.trans ha
  cases hbefore.symm.trans hb
  rw [heq, hoffset, Nat.add_assoc]

end Layout

section Emits

variable {d : TypedDefinition} {parser : List PacketBlock} (h : d.Emits parser) {scope : Scope}
  (hscope : declareStructs [] (generateTypes d.types) = some scope)
  {p : ProtocolDefinition.Packet} (hp : p ∈ d.packets)

include h hscope hp

/-- `sizeof` of the struct of a packet. -/
theorem Emits.sizeof_emitted :
    membersSize scope p.emitted = some (romPacketSize + sizeofMembers p.actions) :=
  membersSize_cons.2 ⟨romPacketSize, _, rfl,
    (h.header p hp).membersSize hscope (d.cloned_packets p hp) "m_", rfl⟩

/-- Every member of the struct of a packet is where the conditions have it. -/
theorem Emits.offsetof_emitted {j : Nat} {m : Member}
    (hm : (generateFields 0 p.actions)[j]? = some m) :
    offsetof scope p.emitted (1 + j) = some (romPacketSize + m.offset) := by
  have hoffset := (h.header p hp).offsetof hscope (d.cloned_packets p hp) "m_"
    [⟨.romPacket, "m_header", none⟩] [] rfl rfl hm
  rwa [List.append_nil] at hoffset

variable {sp : Subpacket} (hsp : sp ∈ p.subpackets)

include hsp

/-- `sizeof` of the struct of a subpacket. -/
theorem Emits.sizeof_emittedWith :
    membersSize scope (p.emittedWith sp) = some (romPacketSize + p.sizeofWith sp) := by
  have hheader := (h.header p hp).membersSize hscope (d.cloned_packets p hp) "m_packet_"
  have hbody := (h.body p hp sp hsp).membersSize hscope (d.cloned_subpackets p hp sp hsp) "m_"
  refine membersSize_cons.2 ⟨romPacketSize, _, rfl, membersSize_append.2 ⟨_, _, hheader,
    membersSize_append.2 ⟨_, _, hbody, membersSize_packerKludge scope _, rfl⟩, rfl⟩, ?_⟩
  rw [Packet.sizeofWith, Nat.add_assoc (sizeofMembers p.actions)]

/-- Every member of the struct of a subpacket is where the conditions, the setters and the
initializers have it. -/
theorem Emits.offsetof_emittedWith {j : Nat} {m : Member} (hm : (p.membersWith sp)[j]? = some m) :
    offsetof scope (p.emittedWith sp) (1 + j) = some (romPacketSize + m.offset) := by
  have hheader := (h.header p hp).membersSize hscope (d.cloned_packets p hp) "m_packet_"
  have hbody := (h.body p hp sp hsp).membersSize hscope (d.cloned_subpackets p hp sp hsp) "m_"
  have hkludge := membersSize_packerKludge scope sp.actions
  rw [Packet.membersWith] at hm
  by_cases hj : j < numFields p.actions
  · -- a member for a field of the packet
    rw [List.getElem?_append_left (by rwa [length_generateFields])] at hm
    exact (h.header p hp).offsetof hscope (d.cloned_packets p hp) "m_packet_"
      [⟨.romPacket, "m_packet_header", none⟩] (declarations "m_" sp.actions ++ _) rfl
      (Option.isSome_iff_exists.2 ⟨_, membersSize_append.2 ⟨_, _, hbody, hkludge, rfl⟩⟩) hm
  · rw [List.getElem?_append_right (by rw [length_generateFields]; omega),
      length_generateFields] at hm
    have hoffset := (h.body p hp sp hsp).offsetof hscope (d.cloned_subpackets p hp sp hsp) "m_"
      (⟨.romPacket, "m_packet_header", none⟩ :: declarations "m_packet_" p.actions)
      (packerKludge sp.actions) (membersSize_cons.2 ⟨romPacketSize, _, rfl, hheader, rfl⟩)
      (Option.isSome_iff_exists.2 ⟨_, hkludge⟩) hm
    have hindex : (⟨.romPacket, "m_packet_header", none⟩ ::
        declarations "m_packet_" p.actions : List Declaration).length +
          (j - numFields p.actions) = 1 + j := by
      rw [List.length_cons, length_declarations]
      omega
    rw [hindex] at hoffset
    exact hoffset

end Emits

end TypedDefinition

namespace ProtocolDefinition

/-! ## Definitions without struct types -/

/-- A definition whose fields have built-in types. -/
def untyped (ps : List Packet) (hpackets : ∀ p ∈ ps, ClonedFields [] none p.actions)
    (hsubpackets : ∀ p ∈ ps, ∀ sp ∈ p.subpackets, ClonedFields [] none sp.actions) :
    TypedDefinition where
  packets := ps
  types := []
  cloned_types := List.forall_mem_nil _
  cloned_packets := hpackets
  cloned_subpackets := hsubpackets

theorem asEmittedFields_nil (as : List Action) : AsEmittedFields [] as := by
  induction as with
  | nil => trivial
  | cons a as ih =>
      cases a with
      | field name type offset =>
          refine ⟨?_, ih⟩
          cases type with
          | builtin object => trivial
          | struct typeName inner =>
              intro t ht
              cases ht
      | transformationAction t => exact ih
      | annotationAction name => exact ih

theorem emits_untyped {ps : List Packet} {hpackets : ∀ p ∈ ps, ClonedFields [] none p.actions}
    {hsubpackets : ∀ p ∈ ps, ∀ sp ∈ p.subpackets, ClonedFields [] none sp.actions}
    {parser : List PacketBlock} (hgen : generateParser ⟨ps⟩ = some parser)
    (hsizes : ∀ p ∈ ps, constantSizes p.actions < 2 ^ 31 ∧
      ∀ sp ∈ p.subpackets, constantSizes sp.actions < 2 ^ 31)
    (hwhole : ∀ b ∈ parser, b.Whole ps) : (untyped ps hpackets hsubpackets).Emits parser := by
  have hlayout : ∀ as, (untyped ps hpackets hsubpackets).LaysOut as := fun as =>
    ⟨List.forall_mem_nil _, rfl, asEmittedFields_nil as⟩
  exact ⟨hgen, fun p _ => hlayout p.actions, fun p _ sp _ => hlayout sp.actions, hsizes, hwhole⟩

end ProtocolDefinition

/-! ## Agreement with the interpreter -/

namespace TypedDefinition

open ProtocolDefinition

/-- The emitted parser and the interpreter come to the same result on a frame if and only if no
candidate that they judge differently comes before the first that both take. -/
theorem process_agrees_iff {d : TypedDefinition} (hd : d.Comparable) {parser : List PacketBlock}
    (hemits : d.Emits parser) {frame : List UInt8} (hsize : romPacketSize ≤ frame.length)
    (hframe : frame.length < 2 ^ 31)
    (hlength : LittleEndian.decode (frame.take 4) = frame.length) (offset : UInt32) :
    d.Agrees parser frame offset ↔ d.MisjudgedLate (frame.drop romPacketSize) :=
  agrees_iff_misjudgedLate hd hemits.generates hsize hframe hlength offset

end TypedDefinition

namespace ProtocolDefinition

/-- A type, a struct, and a value that is fixed. -/
def standingFields : List Action :=
  [.field "type" (u32 (some 1)) 0, .field "position" (.struct "position" positionFields) 0,
    .field "end" (u32 (some 9)) 0]

theorem isField_standingFields : ∀ a ∈ standingFields, a.IsField :=
  List.forall_mem_cons.2 ⟨trivial, List.forall_mem_cons.2 ⟨trivial,
    List.forall_mem_singleton.2 trivial⟩⟩

theorem sizeFrom_standingFields : 13 = sizeFrom 0 standingFields := rfl

theorem numPacketBytes_ne_standing (h : ([] : List Subpacket) ≠ []) : (13 : Int) ≠ 0 := absurd rfl h

def standingPacket : Packet where
  name := "standing"
  actions := standingFields
  subpackets := []
  numPacketBytes := 13
  lastSubpacket := none
  isField := isField_standingFields
  numPacketBytes_eq := sizeFrom_standingFields
  numPacketBytes_ne := numPacketBytes_ne_standing

theorem clonedFields_standingFields :
    ClonedFields positionTypes none standingFields :=
  .field trivial (.field (Or.inr ⟨_, rfl, List.prefix_rfl⟩) (.field trivial .nil))

/-- A definition with the struct and the packet. -/
def standingDefinition : TypedDefinition where
  packets := [standingPacket]
  types := positionTypes
  cloned_types := cloned_positionTypes
  cloned_packets := List.forall_mem_singleton.2 clonedFields_standingFields
  cloned_subpackets := List.forall_mem_singleton.2 (List.forall_mem_nil _)

theorem emits_standingDefinition :
    standingDefinition.Emits [⟨0, standingPacket.conditions, true, []⟩] where
  generates := rfl
  header := by
    refine List.forall_mem_singleton.2 ⟨by decide, by decide, trivial, ?_, trivial, trivial⟩
    rintro t ⟨⟩
    exact ⟨rfl, trivial, trivial, trivial⟩
  body := List.forall_mem_singleton.2 (List.forall_mem_nil _)
  sizes := List.forall_mem_singleton.2 ⟨by decide, List.forall_mem_nil _⟩
  whole := by
    refine List.forall_mem_singleton.2 fun p hp => ?_
    cases hp
    exact ⟨by decide +kernel, List.forall_mem_nil _, List.forall_mem_nil _⟩

theorem comparable_standingDefinition : standingDefinition.Comparable := by
  have hlength : LengthLast standingPacket.actions :=
    Or.inl ⟨nofun, Or.inl ⟨⟨nofun, nofun, trivial⟩, Or.inl ⟨nofun, trivial⟩⟩⟩
  constructor
  · exact List.forall_mem_singleton.2
      ⟨⟨trivial, ⟨trivial, trivial, trivial⟩, trivial, trivial⟩, List.forall_mem_nil _⟩
  · exact List.forall_mem_singleton.2 ⟨by decide, by decide, by decide, trivial⟩
  · exact List.forall_mem_singleton.2 (List.forall_mem_nil _)
  · exact List.forall_mem_singleton.2 rfl
  · exact List.forall_mem_singleton.2 (List.forall_mem_nil _)
  · exact List.forall_mem_singleton.2 hlength
  · exact List.forall_mem_singleton.2 (List.forall_mem_nil _)

/-- The two agree on a whole packet, with a struct in front of the second value that is compared. -/
theorem process_agrees_standing :
    Agrees ⟨[standingPacket]⟩ [⟨0, standingPacket.conditions, true, []⟩]
      [25, 0, 0, 0, 0, 0, 0, 0, 0, 0, 0, 0, 1, 0, 0, 0, 2, 3, 0, 4, 0, 9, 0, 0, 0] 0 := by
  apply (TypedDefinition.process_agrees_iff comparable_standingDefinition emits_standingDefinition
    (by decide) (by decide) (by decide) 0).2
  intro i c hc hmisjudged
  have hcandidate : c = ⟨0, standingPacket, none⟩ := by
    cases i with
    | zero =>
        cases hc
        rfl
    | succ i => cases hc
  subst hcandidate
  cases hmisjudged with
  | truncated _ hlt => exact absurd hlt (by decide)
  | overlong _ _ hlt => exact absurd hlt (by decide)
  | undelimited hnot => exact absurd (Or.inl rfl) hnot
  | beyond hnot => exact absurd (Or.inl rfl) hnot
  | clash _ _ _ hnot =>
      refine absurd (forall₂_congr fun x hx => ?_) hnot
      have hcomparisons : Candidate.comparisons ⟨0, standingPacket, none⟩ =
          [⟨0, .four, false, .hex 1⟩, ⟨9, .four, false, .hex 9⟩] := rfl
      rw [hcomparisons, List.mem_cons, List.mem_singleton] at hx
      rcases hx with rfl | rfl
      · exact (Comparison.compared_iff_stored (by decide) (absurd · Bool.false_ne_true) _).symm
      · exact (Comparison.compared_iff_stored (by decide) (absurd · Bool.false_ne_true) _).symm

theorem comparable_typedPacket : Comparable ⟨[typedPacket]⟩ := by
  have hlength : LengthLast typedPacket.actions :=
    Or.inl ⟨nofun, Or.inl ⟨nofun, trivial⟩⟩
  constructor
  · exact plain_typedPacket
  · exact List.forall_mem_cons.2 ⟨⟨by decide, by decide, trivial⟩, nofun⟩
  · exact List.forall_mem_cons.2 ⟨nofun, nofun⟩
  · exact List.forall_mem_cons.2 ⟨rfl, nofun⟩
  · exact List.forall_mem_cons.2 ⟨nofun, nofun⟩
  · exact List.forall_mem_cons.2 ⟨hlength, nofun⟩
  · exact List.forall_mem_cons.2 ⟨nofun, nofun⟩

theorem clonedFields_typedPacket : ClonedFields [] none typedPacket.actions :=
  .field trivial (.field trivial .nil)

/-- The definition of a packet of a type and a value. -/
def typedDefinition : TypedDefinition :=
  untyped [typedPacket] (List.forall_mem_singleton.2 clonedFields_typedPacket)
    (List.forall_mem_singleton.2 (List.forall_mem_nil _))

theorem emits_typedDefinition :
    typedDefinition.Emits [⟨0, typedPacket.conditions, true, []⟩] := by
  refine emits_untyped rfl (List.forall_mem_singleton.2 ⟨by decide, List.forall_mem_nil _⟩)
    (List.forall_mem_singleton.2 fun p hp => ?_)
  cases hp
  exact ⟨by decide +kernel, List.forall_mem_nil _, List.forall_mem_nil _⟩

/-- The interpreter also returns the packet for a frame that ends after its type, and the emitted
parser does not. -/
theorem truncated_disagrees :
    ¬ ∀ (d : TypedDefinition) (parser : List PacketBlock) (frame : List UInt8) (offset : UInt32),
      d.Comparable → d.Emits parser → romPacketSize ≤ frame.length →
        frame.length < 2 ^ 31 → LittleEndian.decode (frame.take 4) = frame.length →
          ∀ i sel, parserProcess parser frame = some (.on i sel) ↔
            d.Returns offset (frame.drop romPacketSize) i sel := by
  intro hall
  have hiff := hall typedDefinition _ [16, 0, 0, 0, 0, 0, 0, 0, 0, 0, 0, 0, 1, 0, 0, 0] 0
    comparable_typedPacket emits_typedDefinition (by decide) (by decide) (by decide) 0 none
  have hnone : parserProcess [⟨0, typedPacket.conditions, true, []⟩]
    [16, 0, 0, 0, 0, 0, 0, 0, 0, 0, 0, 0, 1, 0, 0, 0] = none := by decide
  have hfirst : (process ⟨[typedPacket]⟩ 0 [1, 0, 0, 0]).1 = some 0 := by decide
  have hreturns : Returns ⟨[typedPacket]⟩ 0 [1, 0, 0, 0] 0 none :=
    ⟨hfirst, _, packets_process hfirst, rfl⟩
  rw [hnone] at hiff
  cases hiff.2 hreturns

end ProtocolDefinition

/-! ## Messages of the emitted sender -/

namespace TypedDefinition

open ProtocolDefinition

/-- The emitted parser hands a message that the emitted `Send` transmits to the function for the
subpacket, with the values that the members were given, if and only if the length of the frame is an
`int`, no fixed value is the minimum, and no packet in front has its length behind the end of the
frame. -/
theorem sent_dispatched_iff {d : TypedDefinition} {parser : List PacketBlock}
    (hemits : d.Emits parser) {i k : Nat} {p : ProtocolDefinition.Packet} {sp : Subpacket}
    (h : d.Selects i p k sp) {stateSend : List UInt8 → Nat → List UInt8}
    (hsend : SetsLength stateSend) {calls : List SetterCall}
    (hcalls : ∀ call ∈ calls, call.Valid p sp) :
    HandedTo parser i p k sp calls (p.message sp stateSend calls) ↔
      romPacketSize + p.sizeofWith sp < 2 ^ 31 ∧
        (∀ m ∈ p.membersWith sp, ¬ m.type.PrintsMinimum) ∧
        ∀ q ∈ d.packets.take i, q.overreads (p.sizeofWith sp) = false :=
  h.handedTo_iff hsend hcalls hemits.generates

end TypedDefinition

namespace ProtocolDefinition

/-- A packet of a type and a length with the subpacket `move`. -/
def movePacket (type : FieldType) (hsize : type.constantSize = 4) : Packet where
  name := "request"
  actions := [.field "type" type 0, .field "length" (.builtin ⟨.length, [0], oneCell⟩) 0]
  subpackets := [⟨"move", [.field "kind" (u32 (some 2)) 0, .field "speed" (u32 none) 0]⟩]
  numPacketBytes := 8
  lastSubpacket := none
  isField := List.forall_mem_cons.2 ⟨trivial, List.forall_mem_cons.2 ⟨trivial, nofun⟩⟩
  numPacketBytes_eq := by
    rw [sizeFrom_field, hsize]
    rfl
  numPacketBytes_ne _ := by decide

def moveSubpacket : Subpacket :=
  ⟨"move", [.field "kind" (u32 (some 2)) 0, .field "speed" (u32 none) 0]⟩

/-- `State::Send`, as far as the emitted code relies on it. -/
def transmit (message : List UInt8) (size : Nat) : List UInt8 :=
  LittleEndian.encode 4 size ++ (message.take size).drop 4

theorem selects_movePacket {ps : List Packet} {type : FieldType} {hsize : type.constantSize = 4}
    {v : UInt32} (hv : fixedStart (movePacket type hsize).actions = some v)
    (hps : ∀ q ∈ ps, q.subpackets = [] ∧ ∃ u, u ≠ v ∧ fixedStart q.actions = some u)
    (hfits : type.FixedFits) :
    Selects ⟨ps ++ [movePacket type hsize]⟩ ps.length (movePacket type hsize) 0 moveSubpacket := by
  have hlast : ∀ q ∈ ps ++ [movePacket type hsize], q ∈ ps ∨ q = movePacket type hsize := by
    intro q hq
    exact (List.mem_append.1 hq).imp_right List.mem_singleton.1
  constructor
  case packet => exact List.getElem?_concat_length
  case subpacket => rfl
  case header => exact ⟨by rw [hsize]; decide, by decide, trivial⟩
  case body => exact ⟨by decide, by decide, trivial⟩
  case length => cases type with
    | struct => cases hv
    | builtin object =>
        obtain ⟨type, cells, hcells⟩ := object
        cases type with
        | unsigned => rfl
        | _ => cases hv
  case starts =>
    intro q hq
    rcases hlast q hq with hq | rfl
    · obtain ⟨-, u, -, hu⟩ := hps q hq
      exact Option.isSome_iff_exists.2 ⟨u, hu⟩
    · exact Option.isSome_iff_exists.2 ⟨v, hv⟩
  case subStarts =>
    intro q hq sq hsq
    rcases hlast q hq with hq | rfl
    · rw [(hps q hq).1] at hsq
      cases hsq
    · obtain rfl := List.mem_singleton.1 hsq
      rfl
  case distinct =>
    intro j q hq hj
    have hlt : j < ps.length := by
      have hlen := (List.getElem?_eq_some_iff.1 hq).1
      rw [List.length_append, List.length_singleton] at hlen
      omega
    rw [List.getElem?_append_left hlt] at hq
    obtain ⟨-, u, hne, hu⟩ := hps q (List.mem_of_getElem? hq)
    rw [hu, hv]
    exact fun heq => hne (Option.some.inj heq)
  case subDistinct =>
    intro j sq hsq hj
    have hlt := (List.getElem?_eq_some_iff.1 hsq).1
    exact absurd (Nat.lt_one_iff.1 hlt) hj
  case fits =>
    have hkind : (u32 (some 2)).FixedFits := by
      intro v hv
      cases hv
      decide
    refine List.forall_mem_cons.2 ⟨hfits, List.forall_mem_cons.2 ⟨trivial, ?_⟩⟩
    exact List.forall_mem_cons.2 ⟨hkind, List.forall_mem_cons.2 ⟨nofun, nofun⟩⟩

theorem clonedFields_movePacket (type : FieldType) (htype : type.Cloned [] none)
    (hsize : type.constantSize = 4) : ClonedFields [] none (movePacket type hsize).actions :=
  .field htype (.field trivial .nil)

theorem clonedFields_moveSubpacket : ClonedFields [] none moveSubpacket.actions :=
  .field trivial (.field trivial .nil)

/-- A message behind another packet, with a value that has been set. -/
theorem sent_dispatched_move :
    HandedTo ((generateParser ⟨[typedPacket, movePacket (u32 (some 5)) rfl]⟩).getD []) 1
      (movePacket (u32 (some 5)) rfl) 0 moveSubpacket [⟨⟨12, u32 none⟩, [7, 0, 0, 0]⟩]
      ((movePacket (u32 (some 5)) rfl).message moveSubpacket transmit
        [⟨⟨12, u32 none⟩, [7, 0, 0, 0]⟩]) := by
  have htype : (u32 (some 5)).FixedFits := by
    intro v hv
    cases hv
    decide
  have hselects : Selects ⟨[typedPacket] ++ [movePacket (u32 (some 5)) rfl]⟩ 1
      (movePacket (u32 (some 5)) rfl) 0 moveSubpacket :=
    selects_movePacket rfl (List.forall_mem_cons.2 ⟨⟨rfl, 1, by decide, rfl⟩, nofun⟩) htype
  have hcalls : ∀ call ∈ [(⟨⟨12, u32 none⟩, [7, 0, 0, 0]⟩ : SetterCall)],
      call.Valid (movePacket (u32 (some 5)) rfl) moveSubpacket := by
    refine List.forall_mem_cons.2 ⟨⟨?_, rfl, rfl, rfl⟩, nofun⟩
    exact List.mem_append_right _ (List.mem_cons_of_mem _ List.mem_cons_self)
  have hpackets : ∀ p ∈ [typedPacket, movePacket (u32 (some 5)) rfl],
      ClonedFields [] none p.actions :=
    List.forall_mem_cons.2 ⟨clonedFields_typedPacket,
      List.forall_mem_singleton.2 (clonedFields_movePacket (u32 (some 5)) trivial rfl)⟩
  have hsubpackets : ∀ p ∈ [typedPacket, movePacket (u32 (some 5)) rfl],
      ∀ sp ∈ p.subpackets, ClonedFields [] none sp.actions :=
    List.forall_mem_cons.2 ⟨List.forall_mem_nil _,
      List.forall_mem_singleton.2 (List.forall_mem_singleton.2 clonedFields_moveSubpacket)⟩
  -- the conditions of these packets are all short enough for the array
  have hemits : (untyped _ hpackets hsubpackets).Emits
      ((generateParser ⟨[typedPacket, movePacket (u32 (some 5)) rfl]⟩).getD []) := by
    refine emits_untyped rfl (List.forall_mem_cons.2 ⟨⟨by decide, List.forall_mem_nil _⟩,
      List.forall_mem_singleton.2 ⟨by decide, List.forall_mem_singleton.2 (by decide)⟩⟩) ?_
    refine List.forall_mem_cons.2 ⟨fun p hp => ?_, List.forall_mem_singleton.2 fun p hp => ?_⟩
    · cases hp
      exact ⟨by decide +kernel, List.forall_mem_nil _, List.forall_mem_nil _⟩
    · cases hp
      refine ⟨by decide +kernel, List.forall_mem_singleton.2 (by decide +kernel),
        List.forall_mem_singleton.2 fun sp hsp => ?_⟩
      cases hsp
      decide +kernel
  refine (TypedDefinition.sent_dispatched_iff hemits hselects (fun _ _ _ _ => rfl) hcalls).2
    ⟨by decide, ?_, List.forall_mem_singleton.2 (by decide)⟩
  have hnot : ∀ v, v ≠ 0x80000000 → ¬ (u32 (some v)).PrintsMinimum :=
    fun v hv hminimum => hv (Option.some.inj hminimum.2.2)
  refine List.forall_mem_cons.2 ⟨hnot 5 (by decide), List.forall_mem_cons.2 ⟨id, ?_⟩⟩
  refine List.forall_mem_cons.2 ⟨hnot 2 (by decide), List.forall_mem_cons.2 ⟨?_, nofun⟩⟩
  exact fun hminimum => nomatch hminimum.2.2

/-- A packet that starts with the decimal value 2147483648 is not found. -/
theorem minimum_not_dispatched :
    ¬ ∀ (d : TypedDefinition) (parser : List PacketBlock) (i : Nat) (p : Packet) (k : Nat)
      (sp : Subpacket) (stateSend : List UInt8 → Nat → List UInt8) (calls : List SetterCall),
      d.Emits parser → d.Selects i p k sp → SetsLength stateSend →
        (∀ call ∈ calls, call.Valid p sp) →
          HandedTo parser i p k sp calls (p.message sp stateSend calls) := by
  intro hall
  let type : FieldType :=
    .builtin ⟨.unsigned ⟨.four, 1, 1, -1, some 0x80000000, .decimal, none⟩, [0], oneCell⟩
  have htype : type.FixedFits := by
    intro v hv
    cases hv
    decide
  have hselects : Selects ⟨[] ++ [movePacket type rfl]⟩ 0 (movePacket type rfl) 0 moveSubpacket :=
    selects_movePacket rfl nofun htype
  have hpackets : ∀ p ∈ [movePacket type rfl], ClonedFields [] none p.actions :=
    List.forall_mem_singleton.2 (clonedFields_movePacket type trivial rfl)
  have hsubpackets : ∀ p ∈ [movePacket type rfl], ∀ sp ∈ p.subpackets,
      ClonedFields [] none sp.actions :=
    List.forall_mem_singleton.2 (List.forall_mem_singleton.2 clonedFields_moveSubpacket)
  have hemits : (untyped _ hpackets hsubpackets).Emits
      ((generateParser ⟨[movePacket type rfl]⟩).getD []) := by
    refine emits_untyped rfl (List.forall_mem_singleton.2
      ⟨by decide, List.forall_mem_singleton.2 (by decide)⟩) ?_
    refine List.forall_mem_singleton.2 fun p hp => ?_
    cases hp
    refine ⟨by decide +kernel, List.forall_mem_singleton.2 (by decide +kernel),
      List.forall_mem_singleton.2 fun sp hsp => ?_⟩
    cases hsp
    decide +kernel
  obtain ⟨hdispatched, -⟩ := hall _ _ 0 (movePacket type rfl) 0 moveSubpacket transmit [] hemits
    hselects (fun _ _ _ _ => rfl) nofun
  exact absurd hdispatched (by decide)

end ProtocolDefinition

/-! ## Requests of the emitted parser -/

namespace TypedDefinition

open ProtocolDefinition

/-- The emitted parser and the constructors stay inside of a frame, and every request has all bytes
of the frame, if and only if every candidate that faults on the frame comes after one that takes
it. -/
theorem requests_inside_iff {d : TypedDefinition} (hd : d.Comparable) {parser : List PacketBlock}
    (hemits : d.Emits parser) (frame : List UInt8) :
    d.StaysInside parser frame ↔
      (romPacketSize ≤ frame.length → LittleEndian.decode (frame.take 4) = frame.length →
        d.FaultsLate (frame.drop romPacketSize)) :=
  staysInside_iff hd hemits.generates frame

end TypedDefinition

namespace ProtocolDefinition

/-- A type and a length. -/
def countedActions : List Action :=
  [.field "type" (u32 (some 1)) 0, .field "size" (.builtin ⟨.length, [0], oneCell⟩) 0]

theorem isField_countedActions : ∀ a ∈ countedActions, a.IsField :=
  List.forall_mem_cons.2 ⟨trivial, List.forall_mem_singleton.2 trivial⟩

theorem sizeFrom_countedActions : 8 = sizeFrom 0 countedActions := rfl

theorem numPacketBytes_ne_counted (h : ([] : List Subpacket) ≠ []) : (8 : Int) ≠ 0 := absurd rfl h

/-- A packet with a length, but without subpackets. -/
def countedPacket : Packet where
  name := "counted"
  actions := countedActions
  subpackets := []
  numPacketBytes := 8
  lastSubpacket := none
  isField := isField_countedActions
  numPacketBytes_eq := sizeFrom_countedActions
  numPacketBytes_ne := numPacketBytes_ne_counted

theorem lengthLast_countedPacket : LengthLast countedPacket.actions := by
  refine Or.inl ⟨?_, Or.inr ⟨⟨_, rfl, rfl⟩, trivial⟩⟩
  intro heq
  cases heq

theorem comparable_countedPacket : Comparable ⟨[countedPacket]⟩ where
  plain := List.forall_mem_singleton.2 ⟨⟨trivial, trivial, trivial⟩, List.forall_mem_nil _⟩
  header := List.forall_mem_singleton.2 ⟨by decide, by decide, trivial⟩
  body := List.forall_mem_singleton.2 (List.forall_mem_nil _)
  headerTag := List.forall_mem_singleton.2 rfl
  bodyTag := List.forall_mem_singleton.2 (List.forall_mem_nil _)
  headerLength := List.forall_mem_singleton.2 lengthLast_countedPacket
  bodyLength := List.forall_mem_singleton.2 (List.forall_mem_nil _)

theorem clonedFields_countedPacket : ClonedFields [] none countedPacket.actions :=
  .field trivial (.field trivial .nil)

theorem emits_countedPacket :
    (untyped [countedPacket] (List.forall_mem_singleton.2 clonedFields_countedPacket)
      (List.forall_mem_singleton.2 (List.forall_mem_nil _))).Emits
        [⟨0, countedPacket.conditions, true, []⟩] := by
  refine emits_untyped rfl (List.forall_mem_singleton.2 ⟨by decide, List.forall_mem_nil _⟩)
    (List.forall_mem_singleton.2 fun p hp => ?_)
  cases hp
  exact ⟨by decide +kernel, List.forall_mem_nil _, List.forall_mem_nil _⟩

/-- The assertion fails on a frame with a byte that the length of the packet counts. -/
theorem requests_inside_counted :
    ¬ StaysInside ⟨[countedPacket]⟩ [⟨0, countedPacket.conditions, true, []⟩]
      [21, 0, 0, 0, 0, 0, 0, 0, 0, 0, 0, 0, 1, 0, 0, 0, 1, 0, 0, 0, 9] := by
  intro hinside
  have hlate := (TypedDefinition.requests_inside_iff comparable_countedPacket emits_countedPacket
    _).1 hinside (by decide) (by decide)
  have hfits : Candidate.Fits [1, 0, 0, 0, 1, 0, 0, 0, 9] ⟨0, countedPacket, none⟩ := by
    rintro offset ⟨⟩
    decide
  have hcompared : Candidate.Compared [1, 0, 0, 0, 1, 0, 0, 0, 9] ⟨0, countedPacket, none⟩ := by
    intro x hx
    obtain rfl : x = ⟨0, .four, false, .hex 1⟩ := List.mem_singleton.1 hx
    decide
  obtain ⟨j, -, hj, -⟩ := hlate 0 ⟨0, countedPacket, none⟩ rfl
    (.overlong rfl rfl (by decide) hfits hcompared)
  cases hj

end ProtocolDefinition

end OpenRom
