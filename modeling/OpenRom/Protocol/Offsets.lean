import OpenRom.Protocol.Attempt
import OpenRom.Protocol.Layout
import OpenRom.Protocol.Leaves

/-!
# Offsets of fields

Where the decoder looks for a field, and where the compiler puts the member that is emitted for it:
behind the same number of bytes when all fields in front of it are filled and nothing was added to
their types, and only then (`TypedDefinition.offsets_agree_iff`).
-/

set_option autoImplicit false

namespace OpenRom

namespace ProtocolDefinition

/-! ## Where the decoder is -/

/-- The actions are fields of constant size, and every leaf of them is filled. -/
structure FilledFront (s : DecodeState) (front : List Action) : Prop where
  plain : PlainActions front
  sized : Sized front
  leaves : ∀ leaf ∈ leavesOf s front, leaf.isSome

/-- `GetDataOffset` of one of the actions, if it is a field. -/
def dataOffsetAt (as : List Action) (i : Nat) : Option UInt32 :=
  match as[i]? with
  | some (.field _ _ offset) => some offset
  | _ => none

theorem length_layoutOf (as : List Action) : (layoutOf as).length = as.length := by
  induction as with
  | nil => rfl
  | cons a as ih => cases a <;> exact congrArg (· + 1) ih

section FilledFront

variable {offset : UInt32} {bs : List UInt8} {front : List Action}
  (h : FilledFront (.start offset bs) front) (hbs : bs.length < 2 ^ 31)

include h hbs

theorem FilledFront.scan : (scanActions bs front).2 = true ∧
    bs.length = (scanActions bs front).1.length + sizeofMembers front := by
  have hfull := (taken_sizeSound h.plain h.sized (.start offset bs)).2.2 h.leaves
  rw [taken, fst_processActions h.plain offset hbs] at hfull
  have hlen : (bs.length : Int) - (scanActions bs front).1.length = sizeofMembers front := hfull
  have hscan := (scan_bounded h.plain h.sized bs).2.2 (by omega)
  exact ⟨hscan, by omega⟩

/-- The field behind them is at the sum of their sizes. -/
theorem FilledFront.dataOffsetAt (name : String) (type : FieldType) (dataOffset : UInt32)
    (back : List Action) :
    dataOffsetAt (processActions (.start offset bs)
        (front ++ .field name type dataOffset :: back)).2 front.length =
      some (offset + UInt32.ofInt (sizeofMembers front)) := by
  obtain ⟨hscan, hlen⟩ := h.scan hbs
  have hfront : (processActions (.start offset bs) front).2.length = front.length := by
    rw [← length_layoutOf, layoutOf_processActions, length_layoutOf]
  have hsize : (bs.length : Int) - (scanActions bs front).1.length = sizeofMembers front := by
    omega
  have hstate : (DecodeState.after offset bs (scanActions bs front).1).dataOffset =
      offset + UInt32.ofInt (sizeofMembers front) := by
    rw [← hsize]
    rfl
  rw [processActions_append h.plain offset hbs hscan, processActions_field, ← hstate, ← hfront,
    ProtocolDefinition.dataOffsetAt, List.getElem?_append_right (Nat.le_refl _), Nat.sub_self]
  -- the offset is recorded whether or not the field itself is filled
  by_cases hnone : (type.fill (.after offset bs (scanActions bs front).1)).1 ≤ 0
  · rw [if_pos hnone]
    rfl
  · rw [if_neg hnone]
    rfl

end FilledFront

/-! ## Where the compiler is -/

/-- Members that have a size have offsets, each behind those in front of it. -/
theorem offsetof_append {scope : Scope} {ms ms' : List Declaration} {m : Declaration} {i : Nat}
    (hi : i = ms.length) (h : (membersSize scope (ms ++ m :: ms')).isSome) :
    ∃ n, membersSize scope ms = some n ∧ offsetof scope (ms ++ m :: ms') i = some n := by
  obtain ⟨total, htotal⟩ := Option.isSome_iff_exists.1 h
  obtain ⟨n, rest, hn, -, -⟩ := membersSize_append.1 htotal
  refine ⟨n, hn, ?_⟩
  subst hi
  have hlt : ms.length < (ms ++ m :: ms').length := by
    rw [List.length_append, List.length_cons]
    omega
  rw [offsetof, if_pos ⟨hlt, h⟩, List.take_left, hn]

/-- The offset of the emitted member behind the header is the data offset of the field behind that
which decoding has begun with. -/
def OffsetsAgree (emitted : Option Nat) (recorded : Option UInt32) (start : UInt32) : Prop :=
  ∃ m r, emitted = some m ∧ recorded = some r ∧ m - romPacketSize = (r - start).toNat

theorem offsetsAgree_iff {n size : Nat} (hsize : size < 2 ^ 32) (start : UInt32) :
    OffsetsAgree (some (romPacketSize + n)) (some (start + UInt32.ofInt size)) start ↔
      n = size := by
  have hback : start + UInt32.ofInt size - start = UInt32.ofInt size := by
    rw [UInt32.add_comm, UInt32.add_sub_cancel]
  have hnat : (UInt32.ofInt size).toNat = size := by
    show (UInt32.ofNat ((size : Int) % 2 ^ 32).toNat).toNat = size
    rw [UInt32.toNat_ofNat']
    omega
  constructor
  · rintro ⟨m, r, ⟨⟩, ⟨⟩, heq⟩
    rw [hback, hnat, Nat.add_sub_cancel_left] at heq
    exact heq
  · rintro rfl
    refine ⟨_, _, rfl, rfl, ?_⟩
    rw [hback, hnat, Nat.add_sub_cancel_left]

/-- The members of the emitted struct in front of a field of the packet. -/
theorem Packet.offsetof_emitted {p : Packet} {scope : Scope} {front back : List Action}
    {name : String} {type : FieldType} {dataOffset : UInt32}
    (hactions : p.actions = front ++ .field name type dataOffset :: back)
    (hcompiles : (membersSize scope p.emitted).isSome) :
    ∃ n, membersSize scope (declarations "m_" front) = some n ∧
      offsetof scope p.emitted (1 + numFields front) = some (romPacketSize + n) := by
  have hsplit : p.emitted = (⟨.romPacket, "m_header", none⟩ :: declarations "m_" front) ++
      type.declare ("m_" ++ name) :: declarations "m_" back := by
    rw [emitted, hactions, declarations_append]
    rfl
  rw [hsplit] at hcompiles ⊢
  obtain ⟨total, htotal, hoffset⟩ := offsetof_append (i := 1 + numFields front)
    (by rw [List.length_cons, length_declarations, Nat.add_comm]) hcompiles
  obtain ⟨size, n, hsize, hn, rfl⟩ := membersSize_cons.1 htotal
  cases hsize
  exact ⟨n, hn, hoffset⟩

/-- The members in front of a field of a subpacket are those of the packet and its own. -/
theorem Packet.offsetof_emittedWith {p : Packet} {sp : Subpacket} {scope : Scope}
    {front back : List Action} {name : String} {type : FieldType} {dataOffset : UInt32}
    (hactions : sp.actions = front ++ .field name type dataOffset :: back)
    (hcompiles : (membersSize scope (p.emittedWith sp)).isSome) :
    ∃ k n, membersSize scope (declarations "m_packet_" p.actions) = some k ∧
      membersSize scope (declarations "m_" front) = some n ∧
      offsetof scope (p.emittedWith sp) (1 + numFields p.actions + numFields front) =
        some (romPacketSize + (k + n)) := by
  have hsplit : p.emittedWith sp =
      (⟨.romPacket, "m_packet_header", none⟩ ::
        (declarations "m_packet_" p.actions ++ declarations "m_" front)) ++
        type.declare ("m_" ++ name) :: (declarations "m_" back ++ packerKludge sp.actions) := by
    rw [emittedWith, hactions, declarations_append, List.cons_append, List.append_assoc,
      List.append_assoc]
    rfl
  rw [hsplit] at hcompiles ⊢
  obtain ⟨total, htotal, hoffset⟩ :=
    offsetof_append (i := 1 + numFields p.actions + numFields front)
      (by rw [List.length_cons, List.length_append, length_declarations, length_declarations]
          omega) hcompiles
  obtain ⟨size, both, hsize, hboth, rfl⟩ := membersSize_cons.1 htotal
  obtain ⟨k, n, hk, hn, rfl⟩ := membersSize_append.1 hboth
  cases hsize
  exact ⟨k, n, hk, hn, hoffset⟩

/-! ## Packets -/

section Fill

variable {p : Packet} {offset : UInt32} {bs : List UInt8} (hbs : bs.length < 2 ^ 31)

include hbs

theorem FilledFront.dataOffsetAt_packet {front back : List Action} {name : String}
    {type : FieldType} {dataOffset : UInt32}
    (hactions : p.actions = front ++ .field name type dataOffset :: back)
    (h : FilledFront (.start offset bs) front) :
    ProtocolDefinition.dataOffsetAt (p.fill (.start offset bs)).2.actions front.length =
      some (offset + UInt32.ofInt (sizeofMembers front)) := by
  rw [Packet.actions_fill, hactions]
  exact h.dataOffsetAt hbs name type dataOffset back

/-- A subpacket is behind all of the packet. -/
theorem FilledFront.dataOffsetAt_subpacket {k : Nat} {sp : Subpacket}
    (hsub : p.subpackets[k]? = some sp) (hheader : FilledFront (.start offset bs) p.actions)
    (hreached : ∀ j sq, j < k → p.subpackets[j]? = some sq →
      (sq.attempt ((DecodeState.start offset bs).advance p.numPacketBytes)).1 = false)
    {front back : List Action} {name : String} {type : FieldType} {dataOffset : UInt32}
    (hactions : sp.actions = front ++ .field name type dataOffset :: back)
    (h : FilledFront ((DecodeState.start offset bs).advance p.numPacketBytes) front) :
    sizeofMembers p.actions + sizeofMembers front ≤ bs.length ∧
      ((p.fill (.start offset bs)).2.subpackets[k]?.bind fun sp =>
          ProtocolDefinition.dataOffsetAt sp.actions front.length) =
        some (offset + UInt32.ofInt ((sizeofMembers p.actions + sizeofMembers front : Nat))) := by
  obtain ⟨hscan, hlen⟩ := hheader.scan hbs
  obtain ⟨hsize, hroom, hstate⟩ := Packet.fill_of_full hheader.plain hheader.sized offset hbs hscan
  have hnum := Packet.numPacketBytes_of_sized hheader.sized
  have hfill := Packet.fill_of_checked (s := .start offset bs) (p := p) (by omega)
    (fun hne => hne.2 (hsize.trans hnum.symm))
  -- the attempts in front fail, and leave the subpacket to its own attempt
  have hfilled : (p.fill (.start offset bs)).2.subpackets[k]? =
      some (sp.attempt ((DecodeState.start offset bs).advance p.numPacketBytes)).2 := by
    rw [hfill]
    show (p.trySubpackets _).2[k]? = _
    rw [Packet.trySubpackets, List.getElem?_firstMatch_of_reached hreached, hsub]
    rfl
  rw [hfilled, hstate]
  rw [hstate] at h
  have hdrop : (bs.drop (sizeofMembers p.actions)).length < 2 ^ 31 := by
    rw [List.length_drop]
    omega
  obtain ⟨-, hbody⟩ := h.scan hdrop
  rw [List.length_drop] at hbody
  refine ⟨by omega, ?_⟩
  show ProtocolDefinition.dataOffsetAt (processActions _ sp.actions).2 front.length = _
  rw [hactions]
  have hoffset := h.dataOffsetAt hdrop name type dataOffset back
  rw [UInt32.add_assoc, ← UInt32.ofInt_add] at hoffset
  exact hoffset

end Fill

end ProtocolDefinition

open ProtocolDefinition in
/-- Where all fields in front of a field of a packet, or of a subpacket, have a constant size and
are filled, the field has the offset in the emitted struct that the decoder records for it, unless
something was added to the types of the fields in front. -/
theorem TypedDefinition.offsets_agree_iff (d : TypedDefinition)
    (hnames : ∀ t ∈ d.types, t.name.length < generateMaxLength) {scope : Scope}
    (hscope : declareStructs [] (generateTypes d.types) = some scope)
    {p : ProtocolDefinition.Packet} (hp : p ∈ d.packets) (offset : UInt32) {bs : List UInt8}
    (hbs : bs.length < 2 ^ 31) :
    (∀ (front back : List Action) (name : String) (type : FieldType) (dataOffset : UInt32),
      p.actions = front ++ .field name type dataOffset :: back →
      (membersSize scope p.emitted).isSome →
      FilledFront (.start offset bs) front →
        (OffsetsAgree (offsetof scope p.emitted (1 + numFields front))
            (dataOffsetAt (p.fill (.start offset bs)).2.actions front.length) offset ↔
          AsEmittedFields d.types front)) ∧
    ∀ (k : Nat) (sp : Subpacket) (front back : List Action) (name : String) (type : FieldType)
      (dataOffset : UInt32), p.subpackets[k]? = some sp →
      sp.actions = front ++ .field name type dataOffset :: back →
      (membersSize scope (p.emittedWith sp)).isSome →
      FilledFront (.start offset bs) p.actions →
      (∀ j sq, j < k → p.subpackets[j]? = some sq →
        (sq.attempt ((DecodeState.start offset bs).advance p.numPacketBytes)).1 = false) →
      FilledFront ((DecodeState.start offset bs).advance p.numPacketBytes) front →
        (OffsetsAgree
            (offsetof scope (p.emittedWith sp) (1 + numFields p.actions + numFields front))
            ((p.fill (.start offset bs)).2.subpackets[k]?.bind fun sp =>
              dataOffsetAt sp.actions front.length) offset ↔
          AsEmittedFields d.types p.actions ∧ AsEmittedFields d.types front) := by
  constructor
  · intro front back name type dataOffset hactions hcompiles hfront
    obtain ⟨n, hn, hemitted⟩ := Packet.offsetof_emitted hactions hcompiles
    obtain ⟨-, hlen⟩ := hfront.scan hbs
    -- both offsets are sums over the fields in front, of one size or of the other
    have hfields : ClonedFields d.types none front := by
      have hall := d.cloned_packets p hp
      rw [hactions] at hall
      exact hall.append_left
    obtain ⟨-, hiff⟩ :=
      membersSize_eq_iff hnames hscope d.cloned_types hfront.plain hfront.sized hfields hn
    rw [hemitted, hfront.dataOffsetAt_packet hbs hactions, offsetsAgree_iff (by omega)]
    exact hiff
  · intro k sp front back name type dataOffset hsub hactions hcompiles hheader hreached hfront
    obtain ⟨m, n, hm, hn, hemitted⟩ := Packet.offsetof_emittedWith hactions hcompiles
    obtain ⟨hroom, hrecorded⟩ :=
      hheader.dataOffsetAt_subpacket hbs hsub hreached hactions hfront
    have hfields : ClonedFields d.types none front := by
      have hall := d.cloned_subpackets p hp sp (List.mem_of_getElem? hsub)
      rw [hactions] at hall
      exact hall.append_left
    -- no emitted member is longer than its field, so the sums agree only part by part
    obtain ⟨hheaderLe, hheaderIff⟩ := membersSize_eq_iff hnames hscope d.cloned_types
      hheader.plain hheader.sized (d.cloned_packets p hp) hm
    obtain ⟨hfrontLe, hfrontIff⟩ :=
      membersSize_eq_iff hnames hscope d.cloned_types hfront.plain hfront.sized hfields hn
    rw [hemitted, hrecorded, offsetsAgree_iff (by omega), ← hheaderIff, ← hfrontIff]
    omega

namespace ProtocolDefinition

/-- The fields of a struct of a number and two signed ones. -/
def positionFields : List Action :=
  [.field "kind" (.builtin ⟨.unsigned ⟨.one, 1, 1, -1, none, .hex, none⟩, [0], oneCell⟩) 0,
    .field "at" (.builtin ⟨.signed ⟨.two, 2, 2, -1, none, .hex, none⟩, [0, 0], twoCells⟩) 0]

/-- The struct by its name. -/
def positionTypes : List StructType := [⟨"position", positionFields⟩]

theorem cloned_positionTypes :
    ∀ t ∈ positionTypes, ClonedFields positionTypes (some t.name) t.actions :=
  List.forall_mem_singleton.2 (.field trivial (.field trivial .nil))

/-- Two values and the struct between them, with the fields that the clone of its type has. -/
def nestedFields (inner : List Action) : List Action :=
  [.field "id" (u32 none) 0, .field "position" (.struct "position" inner) 0,
    .field "last" (u32 none) 0]

def nestedPacket (inner : List Action) : Packet where
  name := "nested"
  actions := nestedFields inner
  subpackets := []
  numPacketBytes := sizeFrom 0 (nestedFields inner)
  lastSubpacket := none
  isField := by
    intro a ha
    simp only [nestedFields, List.mem_cons, List.not_mem_nil, or_false] at ha
    rcases ha with rfl | rfl | rfl <;> trivial
  numPacketBytes_eq := rfl
  numPacketBytes_ne h := absurd rfl h

/-- A definition with the struct and the packet. -/
def nestedDefinition (inner : List Action) (h : layoutOf positionFields <+: layoutOf inner) :
    TypedDefinition where
  packets := [nestedPacket inner]
  types := positionTypes
  cloned_types := cloned_positionTypes
  cloned_packets := List.forall_mem_singleton.2
    (.field trivial (.field (Or.inr ⟨_, rfl, h⟩) (.field trivial .nil)))
  cloned_subpackets := List.forall_mem_singleton.2 (List.forall_mem_nil _)

/-- The two fields in front of the last one. -/
def nestedFront (inner : List Action) : List Action :=
  [.field "id" (u32 none) 0, .field "position" (.struct "position" inner) 0]

theorem filledFront_nested : FilledFront (.start 7 [1, 0, 0, 0, 2, 3, 0, 4, 0, 5, 0, 0, 0])
    (nestedFront positionFields) where
  plain := ⟨trivial, ⟨trivial, trivial, trivial⟩, trivial⟩
  sized := ⟨by decide, by decide, trivial⟩
  leaves := by decide

/-- The last field is at 21 in the emitted struct, and the decoder is 9 bytes behind its start. -/
theorem offsets_agree_nested :
    OffsetsAgree (offsetof [("position", 5)] (nestedPacket positionFields).emitted 3)
      (dataOffsetAt ((nestedPacket positionFields).fill
        (.start 7 [1, 0, 0, 0, 2, 3, 0, 4, 0, 5, 0, 0, 0])).2.actions 2) 7 := by
  have hscope : declareStructs [] (generateTypes [⟨"position", positionFields⟩]) =
      some [("position", 5)] := by
    decide
  have hagree := (TypedDefinition.offsets_agree_iff
    (nestedDefinition positionFields List.prefix_rfl) (by decide) hscope List.mem_cons_self 7
    (by decide)).1 (nestedFront positionFields) [] "last" (u32 none) 0 rfl (by decide)
    filledFront_nested
  refine hagree.2 ⟨trivial, ?_, trivial⟩
  rintro t ⟨⟩
  exact ⟨rfl, trivial, trivial, trivial⟩

/-- The fields of the clone when the node of the field adds one. -/
def extendedFields : List Action :=
  positionFields ++
    [.field "extra" (.builtin ⟨.unsigned ⟨.one, 1, 1, -1, none, .hex, none⟩, [0], oneCell⟩) 0]

theorem offsets_differ :
    ¬ ∀ (d : TypedDefinition) (scope : Scope) (p : Packet) (offset : UInt32)
      (bs : List UInt8) (front back : List Action) (name : String) (type : FieldType)
      (dataOffset : UInt32),
      (∀ t ∈ d.types, t.name.length < generateMaxLength) →
      declareStructs [] (generateTypes d.types) = some scope → p ∈ d.packets →
      bs.length < 2 ^ 31 → p.actions = front ++ .field name type dataOffset :: back →
      (membersSize scope p.emitted).isSome → FilledFront (.start offset bs) front →
      OffsetsAgree (offsetof scope p.emitted (1 + numFields front))
        (dataOffsetAt (p.fill (.start offset bs)).2.actions front.length) offset := by
  intro hall
  have hfront : FilledFront (.start 7 [1, 0, 0, 0, 2, 3, 0, 4, 0, 9, 5, 0, 0, 0])
      (nestedFront extendedFields) :=
    ⟨⟨trivial, ⟨trivial, trivial, trivial, trivial⟩, trivial⟩, ⟨by decide, by decide, trivial⟩,
      by decide⟩
  obtain ⟨m, r, hm, hr, heq⟩ := hall
    (nestedDefinition extendedFields (List.prefix_append _ _)) [("position", 5)]
    (nestedPacket extendedFields) 7 [1, 0, 0, 0, 2, 3, 0, 4, 0, 9, 5, 0, 0, 0]
    (nestedFront extendedFields) [] "last" (u32 none) 0 (by decide) (by decide) List.mem_cons_self
    (by decide) rfl (by decide) hfront
  have hoffset : offsetof [("position", 5)] (nestedPacket extendedFields).emitted 3 = some 21 := by
    decide
  have hrecorded : dataOffsetAt ((nestedPacket extendedFields).fill
      (.start 7 [1, 0, 0, 0, 2, 3, 0, 4, 0, 9, 5, 0, 0, 0])).2.actions 2 = some 17 := by decide
  cases hoffset.symm.trans hm
  cases hrecorded.symm.trans hr
  revert heq
  decide

end ProtocolDefinition

end OpenRom
