import OpenRom.Protocol.MatchCondition

/-!
# Attempts of subpackets

`Fill` of a packet finds a subpacket if and only if the fields of the packet are filled and the
subpacket is the first that takes all of the rest (`Packet.lastSubpacket_fill_iff`). A subpacket
with a transformation takes it only if the fields in front of the transformation are filled and the
transformation succeeds (`Subpacket.full_of_attempt`).
-/

set_option autoImplicit false

namespace OpenRom

namespace ProtocolDefinition

/-! ## Fields in front of other actions -/

theorem FieldType.scanned {type : FieldType} (hplain : type.Plain) (offset : UInt32)
    {bs : List UInt8} (hbs : bs.length < 2 ^ 31) : type.Scanned offset bs := by
  cases type with
  | builtin object => exact scanned_builtin object offset hbs
  | struct name inner => exact scanned_struct name (fst_processActions hplain offset hbs)

/-- Behind fields that are filled, the other actions are processed. -/
theorem processActions_append {as : List Action} (hplain : PlainActions as) (offset : UInt32)
    {data : List UInt8} (hdata : data.length < 2 ^ 31) (hfull : (scanActions data as).2 = true)
    (bs : List Action) :
    processActions (.start offset data) (as ++ bs) =
      ((processActions (.after offset data (scanActions data as).1) bs).1,
        (processActions (.start offset data) as).2 ++
          (processActions (.after offset data (scanActions data as).1) bs).2) := by
  induction as generalizing offset data with
  | nil =>
      show processActions _ bs = ((processActions (.after offset data data) bs).1,
        [] ++ (processActions (.after offset data data) bs).2)
      rw [DecodeState.after_self]
      rfl
  | cons a as ih =>
      cases a with
      | field name type dataOffset =>
          obtain ⟨hlen, -, hrest⟩ := scan_taken hfull
          have hscanned := FieldType.scanned hplain.1 offset hdata
          have hle := (type.scan_suffix data).length_le
          have happend := ih hplain.2 (offset + UInt32.ofInt ((data.length : Int) -
            (type.scan data).1.length)) (Nat.lt_of_le_of_lt hle hdata) hrest
          rw [DecodeState.after_after] at happend
          rw [List.cons_append, processActions_of_taken hscanned hlen,
            processActions_of_taken hscanned hlen, scanActions_of_taken hlen]
          show (_, _) = (_, _)
          rw [DecodeState.after, happend]
          rfl
      | transformationAction t => exact hplain.elim
      | annotationAction name =>
          rw [List.cons_append, processActions_annotationAction, processActions_annotationAction,
            ih hplain offset hdata hfull]
          rfl

theorem lengthLast_of_noFields {as : List Action} (h : NoFields as) : LengthLast as := by
  induction as with
  | nil => trivial
  | cons a as ih =>
      cases a with
      | field => exact h.elim
      | transformationAction => exact h.elim
      | annotationAction => exact ih h

/-- With enough bytes, a struct without fixed values and lengths is filled, and a built-in type is
filled or takes nothing. -/
theorem FieldType.full_or_none {type : FieldType} (hplain : type.Plain)
    (hconst : 0 < type.constantSize) {data : List UInt8} (hroom : type.sizeof ≤ data.length)
    (hstruct : ∀ name inner, type = .struct name inner →
      type.NoLength ∧ type.generateCInitialize = some []) :
    type.Full data ∨ (type.scan data).1.length = data.length := by
  cases type with
  | builtin object =>
      have hlen : ((builtin object).scan data).1.length = data.length - object.type.takes data :=
        List.length_drop
      rcases BuiltinType.takesAll data hconst with ⟨-, hall⟩ | ⟨hnone, -⟩
      · exact Or.inl ((full_builtin_iff hconst data).2 hall)
      · exact Or.inr (by omega)
  | struct name inner =>
      obtain ⟨hlength, hinit⟩ := hstruct name inner rfl
      exact Or.inl ((full_of_unfixed hplain hconst hlength hinit data).2 hroom)

/-- Fields with enough bytes are all filled, or nothing behind them is processed. -/
theorem full_or_stops {as : List Action} (hplain : PlainActions as) (hsized : Sized as)
    (hlast : LengthLast as) {o : Nat} {cs : List Comparison}
    (hgen : generateMatchCondition o as = some cs) (offset : UInt32) {data : List UInt8}
    (hdata : data.length < 2 ^ 31) (hroom : sizeofMembers as ≤ data.length) :
    (scanActions data as).2 = true ∨ ∀ bs, (processActions (.start offset data) (as ++ bs)).1 =
      .after offset data (scanActions data as).1 := by
  induction as generalizing offset data o cs with
  | nil => exact Or.inl rfl
  | cons a as ih =>
      cases a with
      | field name type dataOffset =>
          rw [sizeofMembers_field] at hroom
          obtain ⟨rest, hrest, hcs⟩ := generateMatchCondition_field hgen
          have hstruct : ∀ name inner, type = .struct name inner →
              type.NoLength ∧ type.generateCInitialize = some [] := by
            rintro name inner rfl
            constructor
            · rcases hlast with ⟨hlength, -⟩ | ⟨⟨object, hobject, -⟩, -⟩
              · exact hlength
              · cases hobject
            · rcases hcs with ⟨hinit, -⟩ | ⟨literal, c, -, hc, -⟩
              · exact hinit
              · cases hc
          have hlast' : LengthLast as := by
            rcases hlast with ⟨-, hlast⟩ | ⟨-, hend⟩
            · exact hlast
            · exact lengthLast_of_noFields hend
          have hscanned := FieldType.scanned hplain.1 offset hdata
          have hfirst : type.sizeof ≤ data.length := by omega
          rcases FieldType.full_or_none hplain.1 hsized.1 hfirst hstruct with hfull | hnone
          · -- the field is filled, and the others decide
            have hpos := (type.bounded hplain.1 hsized.1 data).pos
            have hfull : (type.scan data).1.length + type.sizeof = data.length := hfull
            have hlen : (type.scan data).1.length ≠ data.length := by omega
            have hscan := ((type.bounded hplain.1 hsized.1 data).full_iff hlen).2 hfull
            rw [scanActions_of_taken hlen]
            dsimp only
            rw [hscan, Bool.true_and]
            have hdata' : (type.scan data).1.length < 2 ^ 31 := by omega
            have hroom' : sizeofMembers as ≤ (type.scan data).1.length := by omega
            refine (ih hplain.2 hsized.2 hlast' hrest (offset + UInt32.ofInt ((data.length : Int) -
              (type.scan data).1.length)) hdata' hroom').imp_right fun hstop bs => ?_
            rw [List.cons_append, processActions_of_taken hscanned hlen]
            rw [DecodeState.after_after] at hstop
            exact hstop bs
          · -- it takes nothing
            refine Or.inr fun bs => ?_
            rw [List.cons_append, processActions_field, scanActions_field, if_pos hnone,
              if_pos (Int.not_lt.1 fun h => hscanned.pos_iff.1 h hnone), DecodeState.after_self]
      | transformationAction t => exact hplain.elim
      | annotationAction name =>
          refine (ih hplain hsized hlast hgen offset hdata hroom).imp_right fun hstop bs => ?_
          exact hstop bs

/-! ## The subpacket that is found -/

/-- The state in which the subpackets are tried on what is behind the header. -/
def Packet.bodyState (p : Packet) (offset : UInt32) (body : List UInt8) : DecodeState :=
  .start (offset + UInt32.ofInt (sizeofMembers p.actions)) body

section Fill

variable {p : Packet} (hplain : PlainActions p.actions) (hsized : Sized p.actions) {k : Nat}
  {sp : Subpacket} (hsub : p.subpackets[k]? = some sp) (offset : UInt32) {bs : List UInt8}
  (hbs : bs.length < 2 ^ 31)

include hsized in
theorem Packet.numPacketBytes_of_sized : p.numPacketBytes = sizeofMembers p.actions := by
  rw [p.numPacketBytes_eq, (sizeFrom_of_sized hsized).1, Int.zero_add]

include hplain hsized hbs

theorem Packet.fill_of_full (hfull : (scanActions bs p.actions).2 = true) :
    p.headerSize (.start offset bs) = sizeofMembers p.actions ∧
      sizeofMembers p.actions ≤ bs.length ∧
      (DecodeState.start offset bs).advance p.numPacketBytes =
        p.bodyState offset (bs.drop (sizeofMembers p.actions)) := by
  have hlen := (scan_bounded hplain hsized bs).2.1 hfull
  have hheader := headerSize_start hplain offset hbs
  refine ⟨by omega, by omega, ?_⟩
  rw [numPacketBytes_of_sized hsized, DecodeState.advance_start (by omega) (by omega)]
  rfl

include hsub

/-- The header has to be filled, and the subpacket has to be the first that takes the rest. -/
theorem Packet.lastSubpacket_fill_iff :
    (p.fill (.start offset bs)).2.lastSubpacket = some k ↔
      (scanActions bs p.actions).2 = true ∧
        (sp.attempt (p.bodyState offset (bs.drop (sizeofMembers p.actions)))).1 = true ∧
        ∀ j sq, j < k → p.subpackets[j]? = some sq →
          (sq.attempt (p.bodyState offset (bs.drop (sizeofMembers p.actions)))).1 = false := by
  have hne : p.subpackets ≠ [] := List.ne_nil_of_mem (List.mem_of_getElem? hsub)
  have hnum := numPacketBytes_of_sized hsized
  by_cases hfull : (scanActions bs p.actions).2 = true
  · obtain ⟨hheader, hroom, hstate⟩ := fill_of_full hplain hsized offset hbs hfull
    rw [fill_of_checked (by omega) (fun hsize => hsize.2 (hheader.trans hnum.symm)),
      and_iff_right hfull]
    show (p.trySubpackets _).1 = some k ↔ _
    rw [trySubpackets, hstate, List.fst_firstMatch (fun _ _ => rfl), List.findIdx?_eq_some]
    constructor
    · rintro ⟨sq, hsq, htrue, hbefore⟩
      obtain rfl := Option.some.inj (hsub.symm.trans hsq)
      exact ⟨htrue, hbefore⟩
    · rintro ⟨htrue, hbefore⟩
      exact ⟨sp, hsub, htrue, hbefore⟩
  · -- what is not filled has not the size of the header
    refine iff_of_false (fun hlast => ?_) (fun hall => hfull hall.1)
    have hlen := mt (scan_bounded hplain hsized bs).2.2 hfull
    have hle := length_scanActions_le bs p.actions
    have hheader := headerSize_start hplain offset hbs
    have hsize : p.headerSize (.start offset bs) ≠ p.numPacketBytes := by omega
    rw [fill_of_rejected (Or.inr ⟨hne, hsize⟩)] at hlast
    cases hlast

/-- The subpacket that is found takes all of the rest, and is as its attempt has left it. -/
theorem Packet.fill_of_lastSubpacket
    (hlast : (p.fill (.start offset bs)).2.lastSubpacket = some k) :
    (p.fill (.start offset bs)).1 = bs.length ∧
      (p.fill (.start offset bs)).2.subpackets[k]? =
        some (sp.attempt (p.bodyState offset (bs.drop (sizeofMembers p.actions)))).2 := by
  obtain ⟨hfull, -, -⟩ := (lastSubpacket_fill_iff hplain hsized hsub offset hbs).1 hlast
  obtain ⟨hheader, hroom, hstate⟩ := fill_of_full hplain hsized offset hbs hfull
  have hnum := numPacketBytes_of_sized hsized
  have hfill := fill_of_checked (s := .start offset bs) (p := p) (by omega)
    (fun hsize => hsize.2 (hheader.trans hnum.symm))
  rw [hfill] at hlast ⊢
  have hfirst : (p.trySubpackets (.start offset bs)).1 = some k := hlast
  constructor
  · show p.headerSize _ + p.subpacketSize _ = _
    rw [subpacketSize, hfirst, hheader, hnum]
    show (sizeofMembers p.actions : Int) + ((bs.length : Int) - sizeofMembers p.actions) = _
    omega
  · show (p.trySubpackets _).2[k]? = _
    rw [trySubpackets, hstate] at hfirst ⊢
    rw [List.getElem?_firstMatch hfirst, hsub]
    rfl

end Fill

/-! ## Subpackets with a transformation -/

/-- A subpacket takes all that is left when nothing is left. -/
theorem Subpacket.attempt_iff (sp : Subpacket) (s : DecodeState) :
    (sp.attempt s).1 = true ↔ (processActions s sp.actions).1.dataLeft = 0 := by
  show decide _ = true ↔ _
  rw [decide_eq_true_iff]
  omega

section Attempt

variable {sp : Subpacket} {front fields : List Action} {t : Transformation}
  (hactions : sp.actions = front ++ .transformationAction t :: fields) (hplain : PlainActions front)
  (hsized : Sized front) {offset : UInt32} {data : List UInt8} (hdata : data.length < 2 ^ 31)

include hactions hplain hsized hdata

/-- The fields in front of the transformation are filled, and so what is behind it is processed. -/
theorem Subpacket.attempt_of_full (hfull : (scanActions data front).2 = true) {s : DecodeState}
    (ht : t.process (.after offset data (data.drop (sizeofMembers front))) = some s) :
    ((sp.attempt (.start offset data)).1 = true ↔ (processActions s fields).1.dataLeft = 0) ∧
      (sp.attempt (.start offset data)).2.actions = (processActions (.start offset data) front).2 ++
        .transformationAction t :: (processActions s fields).2 := by
  have happend := processActions_append hplain offset hdata hfull
    (.transformationAction t :: fields)
  rw [scanActions_of_full hplain hsized hfull, processActions_transformationAction, ht] at happend
  constructor
  · rw [attempt_iff, hactions, happend]
  · show (processActions _ sp.actions).2 = _
    rw [hactions, happend]

/-- A subpacket takes all that is left only if the fields in front of the transformation are filled,
and it succeeds. -/
theorem Subpacket.full_of_attempt (hlast : LengthLast front) {o : Nat} {cs : List Comparison}
    (hgen : generateMatchCondition o front = some cs) (hroom : sizeofMembers front < data.length)
    (h : (sp.attempt (.start offset data)).1 = true) :
    (scanActions data front).2 = true ∧
      ∃ s, t.process (.after offset data (data.drop (sizeofMembers front))) = some s := by
  rw [attempt_iff, hactions] at h
  have hfull : (scanActions data front).2 = true := by
    refine (full_or_stops hplain hsized hlast hgen offset hdata (Nat.le_of_lt hroom)).resolve_right
      fun hstop => ?_
    have hbound := (scan_bounded hplain hsized data).1
    rw [hstop] at h
    have hlen : ((scanActions data front).1.length : Int) = 0 := h
    omega
  refine ⟨hfull, ?_⟩
  have happend := processActions_append hplain offset hdata hfull
    (.transformationAction t :: fields)
  rw [scanActions_of_full hplain hsized hfull, processActions_transformationAction] at happend
  rw [happend] at h
  cases ht : t.process (.after offset data (data.drop (sizeofMembers front))) with
  | some s => exact ⟨s, rfl⟩
  | none =>
      rw [ht] at h
      have hlen : ((data.drop (sizeofMembers front)).length : Int) = 0 := h
      rw [List.length_drop] at hlen
      omega

end Attempt

end ProtocolDefinition

end OpenRom
