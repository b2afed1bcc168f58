import OpenRom.Protocol.Attempt
import OpenRom.Protocol.PackedSender
import OpenRom.Protocol.Packing
import OpenRom.Protocol.PlainCalls
import OpenRom.Protocol.Values

/-!
# Sending packed fields to the decoder

What the emitted `Send` of a subpacket with a transformation transmits is decoded to the subpacket,
with the values of the arguments, if and only if it has one argument, the fixed values are numbers
of their types, the packet has no other length, and the subpackets in front pass the bytes by
(`packed_decoded_iff`).
-/

set_option autoImplicit false

namespace OpenRom

namespace ProtocolDefinition

/-! ## Lengths -/

theorem FieldType.isLength_iff {object : Builtin} :
    (builtin object).isLength = true ↔ object.type = .length := by
  obtain ⟨type, cells, hcells⟩ := object
  cases type with
  | length => exact iff_of_true rfl rfl
  | unsigned => exact iff_of_false nofun nofun
  | signed => exact iff_of_false nofun nofun
  | string => exact iff_of_false nofun nofun
  | float => exact iff_of_false nofun nofun
  | double => exact iff_of_false nofun nofun
  | unixtime => exact iff_of_false nofun nofun

theorem noLengths_of_members {as : List Action} {offset : Nat}
    (h : ∀ m ∈ generateFields offset as, m.type.NoLength) : NoLengths as := by
  induction as generalizing offset with
  | nil => trivial
  | cons a as ih =>
      cases a with
      | field name type dataOffset =>
          obtain ⟨htype, hrest⟩ := List.forall_mem_cons.1 h
          exact ⟨htype, ih hrest⟩
      | transformationAction t => exact ih h
      | annotationAction name => exact ih h

theorem lengthLast_concat {as : List Action} (h : NoLengths as) {object : Builtin}
    (hlength : object.type = .length) (name : String) (offset : UInt32) :
    LengthLast (as ++ [.field name (.builtin object) offset]) := by
  induction as with
  | nil => exact Or.inr ⟨⟨object, rfl, hlength⟩, trivial⟩
  | cons a as ih =>
      cases a with
      | field name type dataOffset => exact Or.inl ⟨h.1, ih h.2⟩
      | transformationAction t => exact ih h
      | annotationAction name => exact ih h

theorem decode_zeros (n : Nat) : LittleEndian.decode (List.replicate n 0) = 0 := by
  induction n with
  | zero => rfl
  | succ n ih =>
      rw [List.replicate_succ, LittleEndian.decode, ih]
      rfl

theorem take_zeros {n m : Nat} {data : List UInt8}
    (h : data.take (n + m) = List.replicate (n + m) 0) :
    data.take n = List.replicate n 0 ∧ (data.drop n).take m = List.replicate m 0 := by
  constructor
  · have htake := congrArg (List.take n) h
    rwa [List.take_take, List.take_replicate, Nat.min_eq_left (Nat.le_add_right n m)] at htake
  · have hdrop := congrArg (List.drop n) h
    rwa [List.drop_take, List.drop_replicate, Nat.add_sub_cancel_left] at hdrop

/-- Fields that are all filled, with zeros and not to the end of the bytes, have no length. -/
theorem noLengths_of_zeros {as : List Action} (hplain : PlainActions as) (hsized : Sized as)
    {data : List UInt8} (hfull : (scanActions data as).2 = true)
    (hzeros : data.take (sizeofMembers as) = List.replicate (sizeofMembers as) 0)
    (hlen : sizeofMembers as < data.length) : NoLengths as := by
  induction as using actionsRec generalizing data with
  | nil => trivial
  | builtin name object offset as ih =>
      rw [sizeofMembers_field] at hzeros hlen
      obtain ⟨hfirst, hrest⟩ := take_zeros hzeros
      obtain ⟨hobject, hbehind⟩ :=
        (scanActions_full_iff hplain.1 hsized.1 data name offset as).1 hfull
      refine ⟨fun hlength => ?_,
        ih hplain.2 hsized.2 hbehind hrest (by rw [List.length_drop]; omega)⟩
      -- the length would have to be zero
      obtain ⟨-, hready⟩ := (FieldType.full_builtin_iff hsized.1 data).1 hobject
      have hsize : (FieldType.builtin object).sizeof = 4 := by
        show object.type.sizeof = 4
        rw [hlength]
        rfl
      rw [hlength] at hready
      have hready : LittleEndian.decode (data.take 4) + 4 = data.length := hready
      rw [hsize] at hfirst hlen
      rw [hfirst, decode_zeros] at hready
      omega
  | struct name typeName inner offset as ihInner ih =>
      rw [sizeofMembers_field] at hzeros hlen
      obtain ⟨hfirst, hrest⟩ := take_zeros hzeros
      obtain ⟨hstruct, hbehind⟩ :=
        (scanActions_full_iff hplain.1 hsized.1 data name offset as).1 hfull
      have hinner := sized_of_sizeFrom hplain.1 hsized.1
      have hsize : (FieldType.struct typeName inner).sizeof = sizeofMembers inner := rfl
      exact ⟨ihInner hplain.1 hinner ((scan_bounded hplain.1 hinner data).2.2 hstruct) hfirst
        (by omega), ih hplain.2 hsized.2 hbehind hrest (by rw [List.length_drop]; omega)⟩
  | transformationAction t as ih => exact hplain.elim
  | annotationAction name as ih => exact ih hplain hsized hfull hzeros hlen

/-- When the fields are all filled, each of them is. -/
theorem full_of_mem {as : List Action} (hplain : PlainActions as) (hsized : Sized as) {offset : Nat}
    {data : List UInt8} (hfull : (scanActions (data.drop offset) as).2 = true) :
    ∀ m ∈ generateFields offset as, m.type.Plain ∧ m.type.Full (data.drop m.offset) := by
  induction as generalizing offset with
  | nil => exact nofun
  | cons a as ih =>
      cases a with
      | field name type dataOffset =>
          rw [scanActions_full_iff hplain.1 hsized.1, List.drop_drop] at hfull
          exact List.forall_mem_cons.2 ⟨⟨hplain.1, hfull.1⟩, ih hplain.2 hsized.2 hfull.2⟩
      | transformationAction t => exact hplain.elim
      | annotationAction name => exact ih hplain hsized hfull

/-! ## The payload of one argument -/

/-- The fixed values are numbers of their types. -/
def ValuesFit (members : List Member) : Prop :=
  ∀ m ∈ members, ∀ literal, m.type.generateCInitialize = some [literal] →
    literal.value.toNat < 256 ^ m.type.sizeof

section Stored

variable {p : Packet} {sp : Subpacket} {payload : List UInt8} {as : List Action} (hsized : Sized as)
  {offset : Nat} {cs : List Comparison} (hgen : generateMatchCondition offset as = some cs)
  (hwith : ∀ m ∈ generateFields offset as, m ∈ p.membersWith sp)
  (hsame : ∀ m ∈ generateFields offset as, m.type.isLength = false →
    m.get payload = m.get (p.reset sp))

include hsized hgen hwith hsame

/-- The fixed values that `Reset` has stored are read again if they are numbers of their types. -/
theorem stored_iff : (∀ c ∈ cs, c.Stored payload) ↔ ValuesFit (generateFields offset as) := by
  have hmember : ∀ m ∈ generateFields offset as, ∀ literal c, m.Compares literal c →
      (c.Stored payload ↔ literal.value.toNat < 256 ^ m.type.sizeof) := by
    intro m hm literal c hc
    obtain ⟨hoffset, hliteral⟩ := hc.shape
    obtain ⟨-, -, hwidth⟩ := FieldType.full_of_comparison (generateFields_sized hsized m hm) hc.1
      hc.2 []
    have hnot : m.type.isLength = false := by
      refine Bool.eq_false_iff.2 fun hlength => ?_
      cases hc.1.symm.trans (FieldType.sizeof_of_isLength hlength).2
    have hget := (hsame m hm hnot).trans
      (Packet.reset_holds.fixed m (hwith m hm) literal c hc)
    have hloaded : c.loaded payload = literal.value.toNat % 256 ^ m.type.sizeof := by
      rw [← LittleEndian.decode_encode_mod, ← hget, Comparison.loaded, hoffset, hwidth]
      rfl
    rw [Comparison.Stored, hloaded, hliteral]
    exact Nat.mod_eq_iff_lt (Nat.pos_iff_ne_zero.1 (Nat.pow_pos (by decide)))
  constructor
  · intro hall m hm literal hinit
    rcases generateCInitialize_of_mem hgen m hm with hnil | ⟨literal', c, hc⟩
    · cases hnil.symm.trans hinit
    · cases hc.1.symm.trans hinit
      exact (hmember m hm literal c hc).1
        (hall c ((mem_comparisons_iff hgen c).2 ⟨m, hm, literal, hc⟩))
  · intro hfit c hc
    obtain ⟨m, hm, literal, hcompares⟩ := (mem_comparisons_iff hgen c).1 hc
    exact (hmember m hm literal c hcompares).2 (hfit m hm literal hcompares.1)

end Stored

namespace Packet.OnePayload

variable {d : TypedDefinition} {p : Packet} {sp : Subpacket} {front fields : List Action}
  {t : Transformation} {dst payload : List UInt8} (hone : p.OnePayload sp front dst payload)
  (h : p.Compresses d sp front t fields) (hpayload : payload.length < 2 ^ 31)

include hone h hpayload

/-- The fields in front of the transformation are filled if their fixed values fit. -/
theorem front_full_iff :
    (scanActions (payload.drop (sizeofMembers p.actions)) front).2 = true ↔
      ValuesFit (generateFields (sizeofMembers p.actions) front) := by
  obtain ⟨cs, hcs⟩ := h.subCompiles
  rw [h.actions_eq] at hcs
  obtain ⟨cs₁, -, hgen, -⟩ := generateMatchCondition_append hcs
  have hlen := hone.length_eq
  have hwith : ∀ m ∈ generateFields (sizeofMembers p.actions) front, m ∈ p.membersWith sp := by
    intro m hm
    rw [h.membersWith_eq]
    exact List.mem_append_right _ (List.mem_append_left _ hm)
  have hfits : LengthFits payload (lengthOffset (sizeofMembers p.actions) front) := by
    intro o ho
    have hend := lengthOffset_eq h.frontLength ho
    have hload : (payload.drop o).take 4 = _ := hone.frontLength o ho
    rw [hload, LittleEndian.decode_encode_mod]
    unfold uint32
    omega
  rw [scan_full_iff h.frontPlain h.frontSized h.frontLength hgen (by omega),
    and_iff_right (by omega), and_iff_left hfits]
  exact stored_iff h.frontSized hgen hwith fun m hm =>
    hone.unchanged m (List.mem_append_right _ hm)

/-- The packet is filled if it has no other length. -/
theorem header_full_of_lengthLast (hlast : LengthLast p.actions) :
    (scanActions payload p.actions).2 = true ↔ ValuesFit (generateFields 0 p.actions) := by
  obtain ⟨cs, hgen⟩ := h.compiles
  have hlen := hone.length_eq
  have hfits : LengthFits payload (lengthOffset 0 p.actions) := by
    intro o ho
    have hend := lengthOffset_eq hlast ho
    have hload : (payload.drop o).take 4 = _ := hone.length o ho
    rw [hload, LittleEndian.decode_encode_mod]
    unfold uint32
    omega
  have hfull : (scanActions (payload.drop 0) p.actions).2 = true ↔ _ :=
    scan_full_iff h.header h.sized hlast hgen (Nat.zero_le _)
  rw [List.drop_zero] at hfull
  rw [hfull, and_iff_right (by omega), and_iff_left hfits]
  exact stored_iff h.sized hgen (fun m hm => List.mem_append_left _ hm) fun m hm =>
    hone.unchanged m (List.mem_append_left _ hm)

/-- A member in front of the last length, that is filled, has no length: a length would have to
count the bytes behind it, and counts less. -/
theorem noLength_of_full (hfull : (scanActions payload p.actions).2 = true) {m : Member}
    (hm : m ∈ generateFields 0 p.actions)
    (hend : m.offset + m.type.sizeof + 4 ≤ sizeofMembers p.actions) : m.type.NoLength := by
  obtain ⟨cs, hgen⟩ := h.compiles
  have hlen := hone.length_eq
  have hfull : (scanActions (payload.drop 0) p.actions).2 = true := hfull
  obtain ⟨hplain, hfilled⟩ := full_of_mem h.header h.sized hfull m hm
  have hconst := generateFields_sized h.sized m hm
  have hunchanged := hone.unchanged m (List.mem_append_left _ hm)
  have hlengths := hone.lengths m hm
  have hwith : m ∈ p.membersWith sp := List.mem_append_left _ hm
  have hinit := generateCInitialize_of_mem hgen m hm
  obtain ⟨offset, type⟩ := m
  cases type with
  | builtin object =>
      intro hlength
      have hsize : (FieldType.builtin object).sizeof = 4 :=
        (FieldType.sizeof_of_isLength (FieldType.isLength_iff.2 hlength)).1
      have hcount : LittleEndian.decode ((payload.drop offset).take 4) ≤
          sizeofMembers front + dst.length := by
        have hcount := hlengths (FieldType.isLength_iff.2 hlength)
        rw [Member.get, hsize] at hcount
        exact hcount
      obtain ⟨-, hready⟩ := (FieldType.full_builtin_iff hconst _).1 hfilled
      rw [hlength] at hready
      have hready : LittleEndian.decode ((payload.drop offset).take 4) + 4 =
        (payload.drop offset).length := hready
      rw [List.length_drop] at hready
      dsimp only at hend
      omega
  | struct name inner =>
      have hnil : (FieldType.struct name inner).generateCInitialize = some [] := by
        rcases hinit with hnil | ⟨literal, c, -, hc⟩
        · exact hnil
        · cases hc
      have hsized := sized_of_sizeFrom hplain hconst
      have hsize : (FieldType.struct name inner).sizeof = sizeofMembers inner := rfl
      rw [hsize] at hend
      -- `Reset` has left zeros
      have hzeros : (payload.drop offset).take (sizeofMembers inner) =
        List.replicate (sizeofMembers inner) 0 := (hunchanged rfl).trans (get_reset hwith hnil rfl)
      have hbehind : sizeofMembers inner < (payload.drop offset).length := by
        dsimp only at hend
        rw [List.length_drop]
        omega
      exact noLengths_of_zeros hplain hsized ((scan_bounded hplain hsized _).2.2 hfilled) hzeros
        hbehind

/-- The packet is not filled if it has another length. -/
theorem lengthLast_of_full (hfull : (scanActions payload p.actions).2 = true) :
    LengthLast p.actions := by
  obtain ⟨init, name, object, offset, hactions, hlength⟩ := h.ends
  have hsize : sizeofMembers p.actions = sizeofMembers init + 4 := by
    have hobject : (FieldType.builtin object).sizeof = 4 :=
      (FieldType.sizeof_of_isLength (FieldType.isLength_iff.2 hlength)).1
    rw [hactions, sizeofMembers_append, sizeofMembers_field, hobject]
    rfl
  have hnone : ∀ m ∈ generateFields 0 init, m.type.NoLength := by
    intro m hm
    have hbound := (generateFields_bounds m hm).2
    refine hone.noLength_of_full h hpayload hfull ?_ (by omega)
    rw [hactions, generateFields_append]
    exact List.mem_append_left _ hm
  rw [hactions]
  exact lengthLast_concat (noLengths_of_members hnone) hlength name offset

/-- The packet is filled if its fixed values fit and it has no other length. -/
theorem header_full_iff : (scanActions payload p.actions).2 = true ↔
    LengthLast p.actions ∧ ValuesFit (generateFields 0 p.actions) := by
  constructor
  · intro hfull
    have hlast := hone.lengthLast_of_full h hpayload hfull
    exact ⟨hlast, (hone.header_full_of_lengthLast h hpayload hlast).1 hfull⟩
  · rintro ⟨hlast, hfit⟩
    exact (hone.header_full_of_lengthLast h hpayload hlast).2 hfit

end Packet.OnePayload

/-! ## The attempt of the subpacket -/

theorem sized_layoutOf (as : List Action) : Sized (layoutOf as) ↔ Sized as := by
  induction as with
  | nil => exact Iff.rfl
  | cons a as ih =>
      cases a with
      | field name type offset =>
          have htype : type.layout.constantSize = type.constantSize := by
            cases type with
            | builtin object => rfl
            | struct typeName inner => exact sizeFrom_layoutOf 0 inner
          rw [layoutOf_field]
          exact and_congr (by rw [htype]) ih
      | transformationAction t => exact Iff.rfl
      | annotationAction name => exact ih

/-- Structs that the generator compiles have no fixed values. -/
theorem unfixed_of_structs {as : List Action} {offset : Nat} {cs : List Comparison}
    (hgen : generateMatchCondition offset as = some cs)
    (hstructs : ∀ m ∈ generateFields offset as, ∃ name inner, m.type = .struct name inner) :
    generateCInitializers as = some [] := by
  induction as generalizing offset cs with
  | nil => rfl
  | cons a as ih =>
      cases a with
      | field name type dataOffset =>
          obtain ⟨⟨typeName, inner, rfl⟩, hrest⟩ := List.forall_mem_cons.1 hstructs
          obtain ⟨rest, hgen', hcs⟩ := generateMatchCondition_field hgen
          rcases hcs with ⟨hinit, -⟩ | ⟨literal, c, -, hc, -⟩
          · rw [generateCInitializers, hinit, ih hgen' hrest]
            rfl
          · cases hc
      | transformationAction t => exact ih hgen hstructs
      | annotationAction name => exact ih hgen hstructs

theorem tagOf_append (as : List Action) (t : Transformation) (bs : List Action) :
    tagOf (as ++ .transformationAction t :: bs) = tagOf as := by
  induction as with
  | nil => rfl
  | cons a as ih =>
      cases a with
      | field name type offset => cases type <;> rfl
      | transformationAction t => rfl
      | annotationAction name => exact ih

section Tag

variable {width : Width} {v : UInt32} {data : List UInt8}

/-- Fields that start with a fixed value are filled only from bytes that start with it. -/
theorem decode_of_full {as : List Action} (h : tagOf as = some (width, v))
    (hfull : (scanActions data as).2 = true) :
    LittleEndian.decode (data.take width.bytes) = v.toNat := by
  induction as with
  | nil => cases h
  | cons a as ih =>
      cases a with
      | field name type offset =>
          cases type with
          | builtin object =>
              obtain ⟨hlen, -, -⟩ := scan_taken hfull
              refine Classical.byContradiction fun hne => hlen ?_
              show (data.drop (object.type.takes data)).length = data.length
              rw [BuiltinType.takes_of_tag hne h]
              rfl
          | struct => cases h
      | transformationAction t => cases h
      | annotationAction name => exact ih h hfull

/-- A subpacket that starts with another fixed value takes nothing. -/
theorem attempt_of_tag {sp : Subpacket} (h : tagOf sp.actions = some (width, v))
    (hne : LittleEndian.decode (data.take width.bytes) ≠ v.toNat) (hdata : data ≠ [])
    (hlt : data.length < 2 ^ 31) (offset : UInt32) :
    (sp.attempt (.start offset data)).1 = false := by
  have hstops : ∀ {as : List Action}, tagOf as = some (width, v) →
      (processActions (.start offset data) as).1 = .start offset data := by
    intro as h
    induction as with
    | nil => cases h
    | cons a as ih =>
        cases a with
        | field name type dataOffset =>
            cases type with
            | builtin object =>
                have hscanned := FieldType.scanned_builtin object offset hlt
                have hnone : ((FieldType.builtin object).scan data).1.length = data.length := by
                  show (data.drop (object.type.takes data)).length = data.length
                  rw [BuiltinType.takes_of_tag hne h]
                  rfl
                rw [processActions_field, if_pos (Int.not_lt.1 fun h => hscanned.pos_iff.1 h hnone)]
            | struct => cases h
        | transformationAction t => cases h
        | annotationAction name => exact ih h
  refine Bool.eq_false_iff.2 fun htrue => ?_
  rw [Subpacket.attempt_iff, hstops h] at htrue
  have hlen : (data.length : Int) = 0 := htrue
  have hpos := List.length_pos_iff.2 hdata
  omega

end Tag

theorem Packet.Compresses.unfixed {d : TypedDefinition} {p : Packet} {sp : Subpacket}
    {front fields : List Action} {t : Transformation} (h : p.Compresses d sp front t fields) :
    generateCInitializers fields = some [] := by
  obtain ⟨cs, hcs⟩ := h.subCompiles
  rw [h.actions_eq] at hcs
  obtain ⟨-, cs₂, -, hgen⟩ := generateMatchCondition_append hcs
  have hgen : generateMatchCondition (sizeofMembers p.actions + sizeofMembers front) fields =
    some cs₂ := hgen
  exact unfixed_of_structs hgen (h.packedMembers_eq ▸ h.structs)

theorem Packet.Compresses.frontCompiles {d : TypedDefinition} {p : Packet} {sp : Subpacket}
    {front fields : List Action} {t : Transformation} (h : p.Compresses d sp front t fields) :
    ∃ cs, generateMatchCondition (sizeofMembers p.actions) front = some cs := by
  obtain ⟨cs, hcs⟩ := h.subCompiles
  rw [h.actions_eq] at hcs
  obtain ⟨cs₁, -, hgen, -⟩ := generateMatchCondition_append hcs
  exact ⟨cs₁, hgen⟩

theorem Packet.Compresses.tagOf_eq {d : TypedDefinition} {p : Packet} {sp : Subpacket}
    {front fields : List Action} {t : Transformation} (h : p.Compresses d sp front t fields) :
    tagOf sp.actions = tagOf front := by
  rw [h.actions_eq]
  exact tagOf_append front t fields

/-- Structs have no fixed values. -/
theorem Packet.Compresses.valuesFit_iff {d : TypedDefinition} {p : Packet} {sp : Subpacket}
    {front fields : List Action} {t : Transformation} (h : p.Compresses d sp front t fields) :
    ValuesFit (p.membersWith sp) ↔ ValuesFit (generateFields 0 p.actions) ∧
      ValuesFit (generateFields (sizeofMembers p.actions) front) := by
  obtain ⟨cs, hcs⟩ := h.subCompiles
  have hstructs : ValuesFit (p.packedMembers sp) := by
    intro m hm literal hliteral
    obtain ⟨name, inner, hstruct⟩ := h.structs m hm
    have hmem : m ∈ generateFields (sizeofMembers p.actions) sp.actions := by
      rw [h.packedMembers_eq] at hm
      rw [h.actions_eq, generateFields_append]
      exact List.mem_append_right _ hm
    rcases generateCInitialize_of_mem hcs m hmem with hnil | ⟨literal', c, -, hc⟩
    · cases hnil.symm.trans hliteral
    · rw [hstruct] at hc
      cases hc
  unfold ValuesFit at hstructs ⊢
  rw [h.membersWith_eq, List.forall_mem_append, List.forall_mem_append, and_iff_left hstructs]

section One

variable {d : TypedDefinition} {p : Packet} {sp : Subpacket} {front fields : List Action}
  (h : p.Compresses d sp front romPacking fields) {a : Argument}
  (hone : p.Arguments sp [a]) {w : Pack.Written} (hw : Pack.pack a.value = some w)
  {payload : List UInt8} (hpayload : p.OnePayload sp front w.dst payload)
  (hlt : payload.length < 2 ^ 31)

include h hone hw hpayload hlt

/-- When the fields in front of the transformation are filled, the argument is unpacked and the
struct behind it filled with it. -/
theorem Packet.Compresses.attempt_one (offset : UInt32)
    (hfull : (scanActions (payload.drop (sizeofMembers p.actions)) front).2 = true) :
    (sp.attempt (.start offset (payload.drop (sizeofMembers p.actions)))).1 = true ∧
      valuesOf (behindTransformation (sp.attempt
        (.start offset (payload.drop (sizeofMembers p.actions)))).2.actions) = [a.value] := by
  obtain ⟨-, hsize, -⟩ := h.one_member hone
  obtain ⟨hlow, hhigh, hvalue⟩ := h.sizes_of_arguments hone a List.mem_cons_self
  have hdrop : (payload.drop (sizeofMembers p.actions)).length < 2 ^ 31 := by
    rw [List.length_drop]
    omega
  have hbehind : (payload.drop (sizeofMembers p.actions)).drop (sizeofMembers front) = w.dst := by
    rw [List.drop_drop]
    exact hpayload.behind
  have ht : romPacking.process (.after offset (payload.drop (sizeofMembers p.actions))
      ((payload.drop (sizeofMembers p.actions)).drop (sizeofMembers front))) =
        some ⟨a.value, a.value.length, 0⟩ := by
    rw [hbehind]
    exact romPacking_process _ (by omega) (by omega) hw
  obtain ⟨hattempt, hactions⟩ := Subpacket.attempt_of_full h.actions_eq h.frontPlain h.frontSized
    hdrop hfull ht
  -- the struct is read from what has been unpacked
  obtain ⟨-, hleft, hbytes⟩ := processActions_unfixed h.fieldsPlain h.fieldsSized h.fieldsLength
    h.unfixed (s := ⟨a.value, a.value.length, 0⟩)
    ⟨by dsimp only; omega, by dsimp only; omega, by dsimp only; omega⟩
  refine ⟨hattempt.2 ?_, ?_⟩
  · rw [hleft]
    dsimp only
    omega
  · have htake : a.value.take (sizeofMembers fields) = a.value :=
      List.take_of_length_le (by omega)
    have hfront := layoutOf_processActions
      (.start offset (payload.drop (sizeofMembers p.actions))) front
    have hsized := (sized_layoutOf _).1 (hfront ▸ (sized_layoutOf front).2 h.frontSized)
    have hnumber : (valuesOf (processActions
        ⟨a.value, a.value.length, 0⟩ fields).2).length = 1 := by
      rw [← length_valuesOf_layoutOf, layoutOf_processActions, length_valuesOf_layoutOf,
        length_valuesOf fields (sizeofMembers p.actions + sizeofMembers front),
        ← h.packedMembers_eq, ← hone.members]
      rfl
    rw [hactions, (around_transformation hsized _).2.1, valuesOf_of_one hnumber, hbytes, htake]

/-- No call of the attempt leaves its memory. -/
theorem Packet.Compresses.inside_one (offset : UInt32)
    (hfull : (scanActions (payload.drop (sizeofMembers p.actions)) front).2 = true)
    (place : Place) :
    ∀ c ∈ callsOf place (.start offset (payload.drop (sizeofMembers p.actions))) sp.actions,
      c.Inside := by
  obtain ⟨-, hsize, -⟩ := h.one_member hone
  obtain ⟨hlow, hhigh, hvalue⟩ := h.sizes_of_arguments hone a List.mem_cons_self
  have hlen := hpayload.length_eq
  have hdrop : (payload.drop (sizeofMembers p.actions)).length < 2 ^ 31 := by
    rw [List.length_drop]
    omega
  have hbehind : (payload.drop (sizeofMembers p.actions)).drop (sizeofMembers front) = w.dst := by
    rw [List.drop_drop]
    exact hpayload.behind
  have hfront : UsableOf front := usableOf_of_sized h.frontPlain h.frontSized (by omega)
  have hfields : UsableOf fields := usableOf_of_sized h.fieldsPlain h.fieldsSized (by omega)
  have hstate : (processActions (.start offset (payload.drop (sizeofMembers p.actions))) front).1 =
      .after offset (payload.drop (sizeofMembers p.actions)) w.dst := by
    rw [fst_processActions h.frontPlain offset hdrop,
      scanActions_of_full h.frontPlain h.frontSized hfull, hbehind]
  refine inside_of_place (p := ⟨payload.drop (sizeofMembers p.actions), 0⟩) ?_ place
  intro c hc
  rw [h.actions_eq] at hc
  rcases mem_callsOf_append hc with hc | ⟨place', hc⟩
  · exact inside_of_plain h.frontPlain hfront (DecodeState.endsAt_start offset hdrop) c hc
  · rw [hstate] at hc
    rcases List.mem_cons.1 hc with rfl | hc
    · -- the provider places what was packed
      intro hfault
      have happlied : romPacking.applied (.after offset
          (payload.drop (sizeofMembers p.actions)) w.dst) = .placed a.value a.value.length :=
        romPacking_packed _ (by omega) (by omega) hw
      cases happlied.symm.trans hfault
    · have hprocess : romPacking.process (.after offset
          (payload.drop (sizeofMembers p.actions)) w.dst) = some ⟨a.value, a.value.length, 0⟩ :=
        romPacking_process _ (by omega) (by omega) hw
      rw [hprocess] at hc
      refine inside_of_plain h.fieldsPlain hfields (DecodeState.EndsAt.of_reports ?_ ?_ ?_) c hc
      · exact Int.natCast_nonneg _
      · dsimp only
        omega
      · exact Int.le_refl _

end One

/-! ## The calls of a message -/

/-- The subpacket does not take the bytes, and its calls leave no memory. -/
structure Subpacket.PassesBy (sp : Subpacket) (s : DecodeState) : Prop where
  rejected : (sp.attempt s).1 = false
  inside : ∀ c ∈ callsOf ⟨s.data, 0⟩ s sp.actions, c.Inside

section Calls

variable {p : Packet} (hplain : PlainActions p.actions) (hsized : Sized p.actions)
  (offset : UInt32) {bs : List UInt8} (hbs : bs.length < 2 ^ 31)
  (hfull : (scanActions bs p.actions).2 = true)

include hplain hsized hbs hfull

/-- Where the header is filled, only the subpackets that are tried could leave their memory. -/
theorem Packet.inside_calls_iff :
    (∀ c ∈ p.calls ⟨bs, 0⟩ (.start offset bs), c.Inside) ↔
      ∀ (j : Nat) (sq : Subpacket), p.subpackets[j]? = some sq →
        (∀ i sr, i < j → p.subpackets[i]? = some sr →
          (sr.attempt (p.bodyState offset (bs.drop (sizeofMembers p.actions)))).1 = false) →
        ∀ c ∈ callsOf ⟨bs.drop (sizeofMembers p.actions), 0⟩
          (p.bodyState offset (bs.drop (sizeofMembers p.actions))) sq.actions, c.Inside := by
  obtain ⟨hheader, hroom, hstate⟩ := fill_of_full hplain hsized offset hbs hfull
  have hnum := numPacketBytes_of_sized hsized
  have hcond : ¬ (p.headerSize (.start offset bs) < 0 ∨
      p.subpackets ≠ [] ∧ p.headerSize (.start offset bs) ≠ p.numPacketBytes) := by
    rintro (hneg | ⟨-, hne⟩)
    · omega
    · exact hne (hheader.trans hnum.symm)
  have husable : UsableOf p.actions := usableOf_of_sized hplain hsized (by omega)
  have hinside := inside_of_plain hplain husable (DecodeState.endsAt_start offset hbs)
  unfold Packet.calls
  rw [if_neg hcond, hstate]
  constructor
  · intro hall j sq hsq hbefore
    refine inside_of_place (p := (⟨bs, 0⟩ : Place).advance p.numPacketBytes)
      (fun c hc => hall c ?_) _
    refine List.mem_cons_of_mem _ (List.mem_append_right _ ?_)
    refine List.mem_flatMap.2 ⟨sq, List.mem_tried_iff.2 ⟨j, hsq, ?_⟩, List.mem_cons_of_mem _ hc⟩
    exact fun i sr hi hsr => hbefore i sr hi hsr
  · intro hall
    refine List.forall_mem_cons.2 ⟨trivial, List.forall_mem_append.2 ⟨hinside, fun c hc => ?_⟩⟩
    obtain ⟨sq, hsq, hmem⟩ := List.mem_flatMap.1 hc
    obtain ⟨j, hj, hbefore⟩ := List.mem_tried_iff.1 hsq
    rcases List.mem_cons.1 hmem with rfl | hmem
    · trivial
    · exact inside_of_place (hall j sq hj fun i sr hi hsr => hbefore i sr hi hsr) _ c hmem

end Calls

/-! ## The message -/

/-- `Fill` finds the subpacket in the payload, and the fields behind the transformation have the
values of the arguments. -/
structure Packet.Decodes (p : Packet) (k : Nat) (arguments : List Argument) (offset : UInt32)
    (payload : List UInt8) : Prop where
  size : (p.fill (.start offset payload)).1 = payload.length
  subpacket : (p.fill (.start offset payload)).2.lastSubpacket = some k
  values : ∃ sp, (p.fill (.start offset payload)).2.subpackets[k]? = some sp ∧
    valuesOf (behindTransformation sp.actions) = arguments.map Argument.value

/-- What `Send` transmits after `Reset` is decoded to the subpacket, with the values of the
arguments, and no call leaves its memory. `Fill` has the length as an `int`. -/
def Packet.SentDecodes (p : Packet) (k : Nat) (sp : Subpacket)
    (stateSend : List UInt8 → Nat → List UInt8) (arguments : List Argument) (offset : UInt32) :
    Prop :=
  ∃ frame, p.sendPacked sp stateSend (List.replicate romPacketSize 0) (p.reset sp) arguments =
    some frame ∧ frame.length < 2 ^ 31 ∧ p.Decodes k arguments offset (frame.drop romPacketSize) ∧
    ∀ c ∈ p.calls ⟨frame.drop romPacketSize, 0⟩ (.start offset (frame.drop romPacketSize)), c.Inside

/-- What `Pack` writes for the arguments, one behind the other. -/
def packedArguments (arguments : List Argument) : List UInt8 :=
  arguments.flatMap fun a => ((Pack.pack a.value).map Pack.Written.dst).getD []

/-- Only one struct is packed, and the rest of the message is one that `Fill` reads: the fixed
values are numbers of their types, the packet has no other length, the length of the message is an
`int`, and every subpacket in front passes the bytes by. One that starts with another fixed value of
the width does. -/
structure Packet.SendsOne (p : Packet) (k : Nat) (sp : Subpacket) (width : Width)
    (arguments : List Argument) (offset : UInt32) : Prop where
  one : (p.packedMembers sp).length = 1
  values : ValuesFit (p.membersWith sp)
  lengthLast : LengthLast p.actions
  size : romPacketSize +
    (sizeofMembers p.actions + (p.packedBody sp (packedArguments arguments)).length) < 2 ^ 31
  others : ∀ j sq, j < k → p.subpackets[j]? = some sq →
    (tagOf sq.actions).map Prod.fst ≠ some width →
      sq.PassesBy (p.bodyState offset (p.packedBody sp (packedArguments arguments)))

section Main

variable {d : TypedDefinition} {p : Packet} {k : Nat} {sp : Subpacket} {width : Width}
  {v : UInt32} {front fields : List Action} (h : p.Compresses d sp front romPacking fields)
  (hsub : p.subpackets[k]? = some sp)
  {stateSend : List UInt8 → Nat → List UInt8} (hsend : Transmits stateSend)
  {arguments : List Argument} (hargs : p.Arguments sp arguments) (offset : UInt32)

include h hsub hsend hargs

/-- What is transmitted for two arguments or more is not decoded to the subpacket. -/
theorem not_decoded_of_many (hmany : 2 ≤ arguments.length) :
    ¬ p.SentDecodes k sp stateSend arguments offset := by
  rintro ⟨frame, hframe, hlt, hdecodes, -⟩
  have hpayload : (frame.drop romPacketSize).length < 2 ^ 31 := by
    rw [List.length_drop]
    omega
  obtain ⟨packed, hpacked, hzeros⟩ := h.zeros_of_sendPacked hargs hsend hmany hframe
  obtain ⟨-, hattempt, -⟩ := (Packet.lastSubpacket_fill_iff h.header h.sized hsub offset
    hpayload).1 hdecodes.subpacket
  obtain ⟨cs, hgen⟩ := h.frontCompiles
  have hbody : ((frame.drop romPacketSize).drop (sizeofMembers p.actions)).length < 2 ^ 31 := by
    rw [List.length_drop]
    omega
  have hdrop : ((frame.drop romPacketSize).drop (sizeofMembers p.actions)).drop
      (sizeofMembers front) = packed ++ List.replicate 5 0 := by
    rw [List.drop_drop]
    exact hzeros
  have hroom : sizeofMembers front <
      ((frame.drop romPacketSize).drop (sizeofMembers p.actions)).length := by
    have hlen := congrArg List.length hdrop
    rw [List.length_drop, List.length_append, List.length_replicate] at hlen
    omega
  obtain ⟨-, s, hs⟩ := Subpacket.full_of_attempt h.actions_eq h.frontPlain h.frontSized hbody
    h.frontLength hgen hroom hattempt
  -- the transformation fails
  rw [hdrop] at hs
  cases hs.symm.trans (romPacking_zeros _ hpacked)

variable (hstarts : tagOf sp.actions = some (width, v))
  (hdistinct : ∀ j sq, p.subpackets[j]? = some sq → j ≠ k → tagOf sq.actions ≠ some (width, v))

include hstarts hdistinct

/-- What is transmitted for one argument is decoded if the rest of the message is read. -/
theorem decoded_one_iff (hlen : arguments.length = 1) :
    p.SentDecodes k sp stateSend arguments offset ↔ p.SendsOne k sp width arguments offset := by
  obtain ⟨a, rfl⟩ := List.length_eq_one_iff.1 hlen
  obtain ⟨w, frame, hw, hframe, hflen, hone⟩ := h.sendPacked_one hargs hsend
  have hpacked : packedArguments [a] = w.dst := by
    rw [packedArguments, List.flatMap_singleton, hw]
    rfl
  have hnumber : (p.packedMembers sp).length = 1 := by
    rw [← hargs.members]
    rfl
  have hdst : 0 < w.dst.length := by
    obtain ⟨hlow, hhigh, hvalue⟩ := h.sizes_of_arguments hargs a List.mem_cons_self
    obtain ⟨w', hw', -, hsize⟩ := pack_of_size (hvalue ▸ hlow) (hvalue ▸ hhigh)
    obtain rfl : w = w' := Option.some.inj (hw.symm.trans hw')
    rw [hsize, packedSize]
    omega
  have hbody := hone.body
  have hlength := hone.length_eq
  have hbodyLength : (p.packedBody sp w.dst).length = sizeofMembers front + w.dst.length := by
    rw [← hbody, List.length_drop]
    omega
  have hsize : romPacketSize + (sizeofMembers p.actions +
      (p.packedBody sp (packedArguments [a])).length) = frame.length := by
    rw [hpacked, hbodyLength]
    omega
  constructor
  · rintro ⟨frame', hframe', hlt, hdecodes, hinside⟩
    obtain rfl : frame = frame' := Option.some.inj (hframe.symm.trans hframe')
    have hpayload : (frame.drop romPacketSize).length < 2 ^ 31 := by omega
    obtain ⟨hheader, hattempt, hothers⟩ := (Packet.lastSubpacket_fill_iff h.header h.sized hsub
      offset hpayload).1 hdecodes.subpacket
    obtain ⟨hlast, hfit⟩ := (hone.header_full_iff h hpayload).1 hheader
    obtain ⟨cs, hgen⟩ := h.frontCompiles
    have hdrop : ((frame.drop romPacketSize).drop (sizeofMembers p.actions)).length < 2 ^ 31 := by
      rw [List.length_drop]
      omega
    have hroom : sizeofMembers front <
        ((frame.drop romPacketSize).drop (sizeofMembers p.actions)).length := by
      rw [hbody, hbodyLength]
      omega
    obtain ⟨hfull, -⟩ := Subpacket.full_of_attempt h.actions_eq h.frontPlain h.frontSized hdrop
      h.frontLength hgen hroom hattempt
    have hfrontFit := (hone.front_full_iff h hpayload).1 hfull
    refine ⟨hnumber, h.valuesFit_iff.2 ⟨hfit, hfrontFit⟩, hlast, by omega, ?_⟩
    intro j sq hj hsq _
    rw [hpacked, ← hbody]
    refine ⟨hothers j sq hj hsq, ?_⟩
    exact (Packet.inside_calls_iff h.header h.sized offset hpayload hheader).1 hinside j sq hsq
      fun i sr hi hsr => hothers i sr (Nat.lt_trans hi hj) hsr
  · rintro ⟨-, hfit, hlast, hlt, hothers⟩
    rw [hsize] at hlt
    have hpayload : (frame.drop romPacketSize).length < 2 ^ 31 := by omega
    obtain ⟨hheaderFit, hfrontFit⟩ := h.valuesFit_iff.1 hfit
    have hheader := (hone.header_full_iff h hpayload).2 ⟨hlast, hheaderFit⟩
    have hfull := (hone.front_full_iff h hpayload).2 hfrontFit
    obtain ⟨hattempt, hvalues⟩ := h.attempt_one hargs hw hone hpayload
      (offset + UInt32.ofInt (sizeofMembers p.actions)) hfull
    have hbefore : ∀ j sq, j < k → p.subpackets[j]? = some sq →
        sq.PassesBy (p.bodyState offset ((frame.drop romPacketSize).drop
          (sizeofMembers p.actions))) := by
      intro j sq hj hsq
      by_cases htag : (tagOf sq.actions).map Prod.fst = some width
      · -- it starts with another fixed value
        obtain ⟨⟨width', u⟩, hu, rfl⟩ := Option.map_eq_some_iff.1 htag
        have hdata := decode_of_full (h.tagOf_eq.symm.trans hstarts) hfull
        have hdrop : ((frame.drop romPacketSize).drop (sizeofMembers p.actions)).length <
            2 ^ 31 := by
          rw [List.length_drop]
          omega
        have hne : LittleEndian.decode (((frame.drop romPacketSize).drop
            (sizeofMembers p.actions)).take width'.bytes) ≠ u.toNat := by
          rw [hdata]
          intro heq
          refine hdistinct j sq hsq (Nat.ne_of_lt hj) (hu.trans ?_)
          rw [UInt32.toNat_inj.1 heq]
        refine ⟨attempt_of_tag hu hne ?_ hdrop _, inside_of_tag hu hne hdrop _ _⟩
        intro hnil
        rw [hbody] at hnil
        rw [hnil, List.length_nil] at hbodyLength
        omega
      · rw [hbody, ← hpacked]
        exact hothers j sq hj hsq htag
    have hlastSubpacket := (Packet.lastSubpacket_fill_iff h.header h.sized hsub offset
      hpayload).2 ⟨hheader, hattempt, fun j sq hj hsq => (hbefore j sq hj hsq).rejected⟩
    obtain ⟨hall, hsp⟩ := Packet.fill_of_lastSubpacket h.header h.sized hsub offset hpayload
      hlastSubpacket
    refine ⟨frame, hframe, hlt, ⟨hall, hlastSubpacket, _, hsp, hvalues⟩, ?_⟩
    refine (Packet.inside_calls_iff h.header h.sized offset hpayload hheader).2 ?_
    intro j sq hsq hreached
    rcases Nat.lt_trichotomy j k with hj | rfl | hj
    · exact (hbefore j sq hj hsq).inside
    · cases hsub.symm.trans hsq
      exact h.inside_one hargs hw hone hpayload _ hfull _
    · cases (hreached k sp hj hsub).symm.trans hattempt

/-- What `Send` transmits is decoded to the subpacket, with the values of the arguments, if and only
if there is one argument, the fixed values are numbers of their types, the packet has no other
length, and the subpackets in front pass the bytes by. -/
theorem packed_decoded_iff :
    p.SentDecodes k sp stateSend arguments offset ↔ p.SendsOne k sp width arguments offset := by
  have hnumber : arguments.length = (p.packedMembers sp).length := by
    rw [← hargs.members, List.length_map]
  have hpos := List.length_pos_iff.2 h.nonempty
  by_cases hmany : 2 ≤ arguments.length
  · refine iff_of_false (not_decoded_of_many h hsub hsend hargs offset hmany) fun hone => ?_
    have hone := hone.one
    omega
  · exact decoded_one_iff h hsub hsend hargs offset hstarts hdistinct (by omega)

end Main

/-! ## One struct and two -/

/-- The fields of a struct of 48 bytes. -/
def activityCostFields : List Action :=
  [.field "activity" (.builtin ⟨.string 32 32, List.replicate 32 0, rfl⟩) 0,
    .field "unknown1" (u32 none) 0, .field "unknown2" (u32 none) 0, .field "unknown3" (u32 none) 0,
    .field "unknown4" (u32 none) 0]

def activityCost : FieldType := .struct "activity_cost" activityCostFields

/-- The fields of `ActivityCosts` in front of the transformation. -/
def activityFront : List Action :=
  [.field "type" (u32 (some 0x37d)) 0, .field "unknown1" (u32 none) 0,
    .field "length" (.builtin ⟨.length, [0], oneCell⟩) 0]

/-- The fields behind the transformation, with so many structs. -/
def activityFields (n : Nat) : List Action := List.replicate n (.field "cost" activityCost 0)

def activityCosts (n : Nat) : Subpacket :=
  ⟨"ActivityCosts", activityFront ++ .transformationAction romPacking :: activityFields n⟩

/-- A packet of a type and a length with the subpacket. -/
def activityPacket (n : Nat) : Packet where
  name := "ServerResponse"
  actions := [.field "type" (u32 (some 0x87)) 0,
    .field "length" (.builtin ⟨.length, [0], oneCell⟩) 0]
  subpackets := [activityCosts n]
  numPacketBytes := 8
  lastSubpacket := none
  isField := List.forall_mem_cons.2 ⟨trivial, List.forall_mem_cons.2 ⟨trivial, nofun⟩⟩
  numPacketBytes_eq := by decide
  numPacketBytes_ne _ := by decide

/-- The definition with the struct and the packet. -/
def activityDefinition (n : Nat) : TypedDefinition where
  packets := [activityPacket n]
  types := [⟨"activity_cost", activityCostFields⟩]
  cloned_types := List.forall_mem_singleton.2 (.field trivial (.field trivial (.field trivial
    (.field trivial (.field trivial .nil)))))
  cloned_packets := List.forall_mem_singleton.2 (.field trivial (.field trivial .nil))
  cloned_subpackets := by
    intro p hp sp hsp name type offset hmem
    obtain rfl := List.mem_singleton.1 hp
    obtain rfl := List.mem_singleton.1 hsp
    rcases List.mem_append.1 hmem with hmem | hmem
    · simp only [activityFront, List.mem_cons, List.not_mem_nil, or_false] at hmem
      rcases hmem with hmem | hmem | hmem <;> cases hmem <;> trivial
    · rcases List.mem_cons.1 hmem with hmem | hmem
      · cases hmem
      · cases List.eq_of_mem_replicate hmem
        exact Or.inr ⟨_, rfl, List.prefix_rfl⟩

/-- Nothing was added to the struct. -/
theorem laysOut_activityDefinition {n : Nat} {as : List Action}
    (h : AsEmittedFields (activityDefinition n).types as) : (activityDefinition n).LaysOut as where
  names := List.forall_mem_singleton.2 (by decide)
  compiles := by
    show (declareStructs [] (generateTypes [⟨"activity_cost", activityCostFields⟩])).isSome
    decide
  asEmitted := h

/-- One argument for each struct, all of them zeros. -/
def activityArguments (n : Nat) : List Argument :=
  ((activityPacket n).packedMembers (activityCosts n)).map fun m => ⟨m, List.replicate 48 0⟩

theorem compresses_activityCosts {n : Nat} (hn : n = 1 ∨ n = 2) :
    (activityPacket n).Compresses (activityDefinition n) (activityCosts n) activityFront romPacking
      (activityFields n) := by
  have hplain : activityCost.Plain := ⟨trivial, trivial, trivial, trivial, trivial, trivial⟩
  have hnone : activityCost.NoLength := ⟨nofun, nofun, nofun, nofun, nofun, trivial⟩
  have hcost : activityCost.AsEmitted (activityDefinition n).types := by
    rintro t ⟨⟩
    exact ⟨rfl, trivial, trivial, trivial, trivial, trivial, trivial⟩
  constructor
  case packet => exact List.mem_cons_self
  case headerLayout => exact laysOut_activityDefinition ⟨trivial, trivial, trivial⟩
  case bodyLayout =>
    -- the cases with one struct and with two are the same, but for the number of parts
    rcases hn with rfl | rfl
    · exact laysOut_activityDefinition ⟨trivial, trivial, trivial, hcost, trivial⟩
    · exact laysOut_activityDefinition ⟨trivial, trivial, trivial, hcost, hcost, trivial⟩
  case mem => exact List.mem_cons_self
  case actions_eq => rfl
  case header => exact ⟨trivial, trivial, trivial⟩
  case ends => exact ⟨[_], "length", _, 0, rfl, rfl⟩
  case frontPlain => exact ⟨trivial, trivial, trivial, trivial⟩
  case frontSized => exact ⟨by decide, by decide, by decide, trivial⟩
  case frontLength => exact Or.inl ⟨nofun, Or.inl ⟨nofun, Or.inr ⟨⟨_, rfl, rfl⟩, trivial⟩⟩⟩
  case compiles => exact ⟨_, rfl⟩
  case fieldsPlain =>
    rcases hn with rfl | rfl
    · exact ⟨hplain, trivial⟩
    · exact ⟨hplain, hplain, trivial⟩
  case fieldsSized =>
    rcases hn with rfl | rfl
    · exact ⟨by decide, trivial⟩
    · exact ⟨by decide, by decide, trivial⟩
  case fieldsLength =>
    rcases hn with rfl | rfl
    · exact ⟨hnone, trivial⟩
    · exact ⟨hnone, hnone, trivial⟩
  case structs =>
    rcases hn with rfl | rfl
    · exact List.forall_mem_cons.2 ⟨⟨_, _, rfl⟩, nofun⟩
    · exact List.forall_mem_cons.2 ⟨⟨_, _, rfl⟩, List.forall_mem_cons.2 ⟨⟨_, _, rfl⟩, nofun⟩⟩
  case sizes => rcases hn with rfl | rfl <;> decide
  case total => rcases hn with rfl | rfl <;> decide
  case nonempty => rcases hn with rfl | rfl <;> exact List.cons_ne_nil _ _
  case subCompiles => rcases hn with rfl | rfl <;> exact ⟨_, rfl⟩

theorem arguments_activityCosts {n : Nat} (hn : n = 1 ∨ n = 2) :
    (activityPacket n).Arguments (activityCosts n) (activityArguments n) := by
  rcases hn with rfl | rfl
  · exact ⟨rfl, List.forall_mem_cons.2 ⟨rfl, nofun⟩⟩
  · exact ⟨rfl, List.forall_mem_cons.2 ⟨rfl, List.forall_mem_cons.2 ⟨rfl, nofun⟩⟩⟩

theorem distinct_activityCosts {n : Nat} : ∀ j sq, (activityPacket n).subpackets[j]? = some sq →
    j ≠ 0 → tagOf sq.actions ≠ some (.four, 0x37d) := by
  intro j sq hsq hj
  exact absurd (Nat.lt_one_iff.1 (List.getElem?_eq_some_iff.1 hsq).1) hj

theorem transmits_take : Transmits fun message size => message.take size where
  length_eq _ _ _ h := List.length_take_of_le h
  payload _ _ _ _ := rfl

theorem valuesFit_activityCosts :
    ValuesFit ((activityPacket 1).membersWith (activityCosts 1)) := by
  refine List.forall_mem_cons.2 ⟨?_, List.forall_mem_cons.2 ⟨nofun, ?_⟩⟩
  · rintro literal ⟨⟩
    decide
  · refine List.forall_mem_cons.2 ⟨?_, List.forall_mem_cons.2 ⟨nofun, ?_⟩⟩
    · rintro literal ⟨⟩
      decide
    · exact List.forall_mem_cons.2 ⟨nofun, List.forall_mem_cons.2 ⟨nofun, nofun⟩⟩

/-- One struct is decoded. -/
theorem activityCost_decoded :
    (activityPacket 1).SentDecodes 0 (activityCosts 1) (fun message size => message.take size)
      (activityArguments 1) 0 := by
  refine (packed_decoded_iff (compresses_activityCosts (Or.inl rfl)) rfl transmits_take
    (arguments_activityCosts (Or.inl rfl)) 0 rfl distinct_activityCosts).2 ?_
  constructor
  case one => rfl
  case values => exact valuesFit_activityCosts
  case lengthLast => exact Or.inl ⟨nofun, Or.inr ⟨⟨_, rfl, rfl⟩, trivial⟩⟩
  case size =>
    obtain ⟨w, hw, hlen⟩ : ∃ w, Pack.pack (List.replicate 48 0) = some w ∧
        w.outlen = w.dst.length ∧ w.dst.length = packedSize 48 :=
      pack_of_size (by decide) (by decide)
    have hpacked : packedArguments (activityArguments 1) = w.dst := by
      show ((Pack.pack (List.replicate 48 0)).map Pack.Written.dst).getD [] ++ [] = w.dst
      rw [hw, List.append_nil]
      rfl
    rw [hpacked, Packet.packedBody, List.length_append, hlen.2]
    decide
  case others => exact fun j sq hj => absurd hj (Nat.not_lt_zero j)

/-- Two structs are not decoded. -/
theorem activityCosts_not_decoded :
    ¬ ∀ (d : TypedDefinition) (p : Packet) (k : Nat) (sp : Subpacket) (width : Width) (v : UInt32)
        (front fields : List Action) (stateSend : List UInt8 → Nat → List UInt8)
        (arguments : List Argument) (offset : UInt32),
      p.Compresses d sp front romPacking fields → p.subpackets[k]? = some sp →
      Transmits stateSend → p.Arguments sp arguments → tagOf sp.actions = some (width, v) →
      (∀ j sq, p.subpackets[j]? = some sq → j ≠ k → tagOf sq.actions ≠ some (width, v)) →
        p.SentDecodes k sp stateSend arguments offset := by
  intro hall
  have h := compresses_activityCosts (Or.inr rfl)
  have hargs := arguments_activityCosts (Or.inr rfl)
  exact not_decoded_of_many h rfl transmits_take hargs 0 (by decide)
    (hall _ _ 0 _ .four 0x37d _ _ _ _ 0 h rfl transmits_take hargs rfl distinct_activityCosts)

end ProtocolDefinition

end OpenRom
