import OpenRom.Protocol.Scan

/-!
# What an accepted payload has filled

`Struct::Fill` stops at the first field that fails and returns the bytes taken so far, never an
error, and `Process` compares only the size. So a packet is returned also when a payload ends before
its fields do (`truncated_accepted`). The packet returned is filled from the payload for the
definitions and payloads where no such packet comes first (`process_filled_iff`).
-/

set_option autoImplicit false

namespace OpenRom

namespace ProtocolDefinition

/-- The object has its fixed value, if there is one. -/
def Builtin.Matches (b : Builtin) : Prop :=
  match b.type with
  | .unsigned t => ∀ v, t.fixedValue = some v → b.cells.head? = some v.toNat
  | .signed t => ∀ v, t.fixedValue = some v → b.cells.head? = some v.toNat
  | _ => True

/-- One call of `Fill` fills all of the actions, in the structs in them too: every field is filled
with at least one byte, has its fixed value, and begins where the one before it ends. The states
are those at both ends, the second list is the first as the call leaves it. -/
inductive Filled : DecodeState → List Action → DecodeState → List Action → Prop
  | nil (s : DecodeState) : Filled s [] s []
  | builtin {s s' : DecodeState} {as as' : List Action} (name : String) (b : Builtin)
      (offset : UInt32) : 0 < (b.fill s).1 → (b.fill s).2.Matches →
        Filled (s.advance (b.fill s).1) as s' as' →
          Filled s (.field name (.builtin b) offset :: as) s'
            (.field name (.builtin (b.fill s).2) s.dataOffset :: as')
  | struct {s mid s' : DecodeState} {inner inner' as as' : List Action} (name typeName : String)
      (offset : UInt32) : Filled s inner mid inner' → mid.dataLeft < s.dataLeft →
        Filled mid as s' as' →
          Filled s (.field name (.struct typeName inner) offset :: as) s'
            (.field name (.struct typeName inner') s.dataOffset :: as')
  | annotationAction {s s' : DecodeState} {as as' : List Action} (name : String) :
      Filled s as s' as' →
      Filled s (.annotationAction name :: as) s' (.annotationAction name :: as')

/-- The packet `p'`, which was `p` before, and its subpacket are filled from all of the payload. -/
inductive FilledFrom (offset : UInt32) (bs : List UInt8) (p p' : Packet) : Prop
  | packet {s : DecodeState} : p'.lastSubpacket = none →
      Filled (.start offset bs) p.actions s p'.actions → s.dataLeft = 0 → FilledFrom offset bs p p'
  | subpacket {s s' : DecodeState} {k : Nat} {sp sp' : Subpacket} : p'.lastSubpacket = some k →
      Filled (.start offset bs) p.actions s p'.actions →
      p.subpackets[k]? = some sp → p'.subpackets[k]? = some sp' →
      Filled s sp.actions s' sp'.actions → s'.dataLeft = 0 → FilledFrom offset bs p p'

/-- The packet reads the payload to its end and has nothing left to fill. -/
def Packet.Full (p : Packet) (bs : List UInt8) : Prop := ∃ sel, p.reading bs = some (sel, true)

/-- The packet reads the payload to its end, but one of its fields takes no byte of it: those that
it needs are missing, or are not its fixed value or its length. -/
def Packet.Short (p : Packet) (bs : List UInt8) : Prop := ∃ sel, p.reading bs = some (sel, false)

/-! ## Filling and reading -/

theorem UnsignedType.head?_fill {t : UnsignedType} {value : List Nat} {s : DecodeState}
    (h : 0 < (t.fill value s).1) {v : UInt32} (hv : t.fixedValue = some v) :
    (t.fill value s).2.head? = some v.toNat := by
  unfold fill at h ⊢
  by_cases hmin : t.width.bytes * t.minCount > s.dataLeft
  · rw [if_pos hmin] at h
    exact absurd h (Int.lt_irrefl 0)
  · rw [if_neg hmin, hv] at h ⊢
    dsimp only at h ⊢
    by_cases hhead : (List.overwrite (readCells t.width.bytes
        (min (s.dataLeft.tdiv t.width.bytes) t.count).toNat s.data) value).head? = some v.toNat
    · rw [if_neg fun hne => hne hhead]
      exact hhead
    · rw [if_pos hhead] at h
      exact absurd h (Int.not_lt.2 (Int.negSucc_le_zero 0))

theorem Builtin.matches_fill {b : Builtin} {s : DecodeState} (h : 0 < (b.fill s).1) :
    (b.fill s).2.Matches := by
  obtain ⟨type, cells, hcells⟩ := b
  cases type with
  | unsigned t => exact fun v hv => UnsignedType.head?_fill h hv
  | signed t => exact fun v hv => UnsignedType.head?_fill h hv
  | _ => trivial

/-- Where every field reads some bytes, decoding fills it. -/
theorem filled_of_scan {as : List Action} (hplain : PlainActions as) (offset : UInt32)
    {bs : List UInt8} (hbs : bs.length < 2 ^ 31) (h : (scanActions bs as).2 = true) :
    Filled (.start offset bs) as (.after offset bs (scanActions bs as).1)
      (processActions (.start offset bs) as).2 := by
  induction as using actionsRec generalizing offset bs with
  | nil =>
      rw [scanActions, DecodeState.after_self]
      exact .nil _
  | builtin name object dataOffset as ih =>
      -- the field has taken some bytes, and what follows is filled from behind them
      obtain ⟨hlen, -, hrest⟩ := scan_taken h
      have hscanned := FieldType.scanned_builtin object offset hbs
      have hpos := hscanned.pos_iff.2 hlen
      have hlt := Nat.lt_of_le_of_lt (FieldType.scan_suffix bs (.builtin object)).length_le hbs
      rw [processActions_of_taken hscanned hlen, scanActions_of_taken hlen]
      apply Filled.builtin name object dataOffset hpos (Builtin.matches_fill hpos)
      have hadvance :
          (DecodeState.start offset bs).advance (object.fill (.start offset bs)).1 = _ :=
        hscanned.advance hpos
      have ih := ih hplain.2 (offset + UInt32.ofInt ((bs.length : Int) -
        ((FieldType.builtin object).scan bs).1.length)) hlt hrest
      rw [DecodeState.after_after] at ih
      rw [hadvance]
      exact ih
  | struct name typeName inner dataOffset as ihInner ih =>
      -- so has the struct, all of whose fields are filled
      obtain ⟨hlen, hinner, hrest⟩ := scan_taken h
      have hle := length_scanActions_le bs inner
      have hscanned := FieldType.scanned_struct typeName (fst_processActions hplain.1 offset hbs)
      have ih := ih hplain.2 (offset + UInt32.ofInt ((bs.length : Int) -
        (scanActions bs inner).1.length)) (Nat.lt_of_le_of_lt hle hbs) hrest
      have htail := DecodeState.after_after offset bs (scanActions bs inner).1
        (scanActions (scanActions bs inner).1 as).1
      rw [processActions_of_taken hscanned hlen, scanActions_of_taken hlen]
      apply Filled.struct name typeName dataOffset (ihInner hplain.1 offset hbs hinner)
      · have hlen' : (scanActions bs inner).1.length ≠ bs.length := hlen
        show ((scanActions bs inner).1.length : Int) < bs.length
        omega
      · exact htail ▸ ih
  | transformationAction t as ih => exact hplain.elim
  | annotationAction name as ih => exact .annotationAction name (ih hplain offset hbs h)

/-- What is filled is read. -/
theorem scan_of_filled {as as' : List Action} (hplain : PlainActions as) {offset : UInt32}
    {bs : List UInt8} (hbs : bs.length < 2 ^ 31) {s : DecodeState}
    (h : Filled (.start offset bs) as s as') :
    (scanActions bs as).2 = true ∧ s = .after offset bs (scanActions bs as).1 := by
  induction as using actionsRec generalizing offset bs s as' with
  | nil =>
      cases h
      exact ⟨rfl, (DecodeState.after_self offset bs).symm⟩
  | builtin name object dataOffset as ih =>
      cases h with
      | builtin name object dataOffset hpos hmatches hrest =>
          -- a field that is filled takes some bytes
          have hscanned := FieldType.scanned_builtin object offset hbs
          have hlen := hscanned.pos_iff.1 hpos
          have hadvance : (DecodeState.start offset bs).advance
            (object.fill (.start offset bs)).1 = _ := hscanned.advance hpos
          have hlt := Nat.lt_of_le_of_lt (FieldType.scan_suffix bs (.builtin object)).length_le hbs
          rw [hadvance] at hrest
          obtain ⟨hscan, rfl⟩ := ih hplain.2 hlt hrest
          rw [scanActions_of_taken hlen, DecodeState.after_after]
          exact ⟨hscan, rfl⟩
  | struct name typeName inner dataOffset as ihInner ih =>
      cases h with
      | struct name typeName dataOffset hinner hless hrest =>
          obtain ⟨hscanInner, rfl⟩ := ihInner hplain.1 hbs hinner
          have hless' : ((scanActions bs inner).1.length : Int) < bs.length := hless
          have hlen : ((FieldType.struct typeName inner).scan bs).1.length ≠ bs.length := by
            show (scanActions bs inner).1.length ≠ bs.length
            omega
          obtain ⟨hscan, rfl⟩ := ih hplain.2 (by omega) hrest
          rw [scanActions_of_taken hlen, DecodeState.after_after]
          exact ⟨Bool.and_eq_true_iff.2 ⟨hscanInner, hscan⟩, rfl⟩
  | transformationAction t as ih => exact hplain.elim
  | annotationAction name as ih =>
      cases h with
      | annotationAction name hrest => exact ih hplain hbs hrest

/-! ## Packets -/

section Packet

variable {p : Packet} (hplain : p.Plain) (offset : UInt32) {bs : List UInt8}
  (hbs : bs.length < 2 ^ 31)

include hplain hbs

theorem Packet.filledFrom_header {full : Bool} (hrest : (scanActions bs p.actions).1 = [])
    (hfull : full = (scanActions bs p.actions).2)
    (hlast : (p.fill (.start offset bs)).2.lastSubpacket = none) :
    FilledFrom offset bs p (p.fill (.start offset bs)).2 ↔ full = true := by
  constructor
  · intro h
    cases h with
    | packet _ hfilled _ => exact hfull.trans (scan_of_filled hplain.actions hbs hfilled).1
    | subpacket hlast' =>
        rw [hlast] at hlast'
        cases hlast'
  · intro h
    have hfilled := filled_of_scan hplain.actions offset hbs (hfull.symm.trans h)
    rw [← Packet.actions_fill] at hfilled
    apply FilledFrom.packet hlast hfilled
    show ((scanActions bs p.actions).1.length : Int) = 0
    rw [hrest]
    rfl

theorem Packet.filledFrom_subpacket {full : Bool} {k : Nat} {sp : Subpacket}
    (hsize : (bs.length : Int) - (scanActions bs p.actions).1.length = p.numPacketBytes)
    (hsel : p.subpacketFor (scanActions bs p.actions).1 = some k)
    (hsp : p.subpackets[k]? = some sp)
    (hfull : full = ((scanActions bs p.actions).2 &&
      (scanActions (scanActions bs p.actions).1 sp.actions).2)) :
    FilledFrom offset bs p (p.fill (.start offset bs)).2 ↔ full = true := by
  have hrest : (scanActions bs p.actions).1.length < 2 ^ 31 :=
    Nat.lt_of_le_of_lt (length_scanActions_le bs p.actions) hbs
  have hplainSp := hplain.subpackets sp (List.mem_of_getElem? hsp)
  obtain ⟨-, hlast, hsubpackets⟩ := Packet.fill_header hplain offset hbs hsize
  rw [hsel] at hlast
  rw [hfull, Bool.and_eq_true]
  constructor
  · intro h
    cases h with
    | packet hlast' =>
        -- but the packet has selected a subpacket
        rw [hlast] at hlast'
        cases hlast'
    | subpacket hlast' hheader hsp' _ hfilled _ =>
        rw [hlast] at hlast'
        cases hlast'
        rw [hsp] at hsp'
        cases hsp'
        obtain ⟨hscan, rfl⟩ := scan_of_filled hplain.actions hbs hheader
        exact ⟨hscan, (scan_of_filled hplainSp hrest hfilled).1⟩
  · intro ⟨hscan, hscanSp⟩
    have hheader := filled_of_scan hplain.actions offset hbs hscan
    rw [← Packet.actions_fill] at hheader
    have hfilled := filled_of_scan hplainSp
      (offset + UInt32.ofInt ((bs.length : Int) - (scanActions bs p.actions).1.length)) hrest
      hscanSp
    have hfirst := Packet.firstMatch_subpackets hplain
      (offset + UInt32.ofInt ((bs.length : Int) - (scanActions bs p.actions).1.length)) hrest
    have hsp' := List.getElem?_firstMatch (hfirst.trans hsel)
    obtain ⟨sp₀, hsp₀, hend, -⟩ := List.findIdx?_eq_some.1 hsel
    rw [hsp] at hsp₀ hsp'
    cases hsp₀
    have hsp'' : (p.fill (.start offset bs)).2.subpackets[k]? =
        some (Subpacket.attempt (.after offset bs (scanActions bs p.actions).1) sp).2 := by
      rw [hsubpackets]
      exact hsp'
    refine .subpacket hlast hheader hsp hsp'' hfilled ?_
    show ((scanActions (scanActions bs p.actions).1 sp.actions).1.length : Int) = 0
    rw [List.isEmpty_iff.1 hend]
    rfl

/-- A packet that reads the payload to its end is filled from it when nothing is left to fill. -/
theorem Packet.filledFrom_iff {sel : Option Nat} {full : Bool}
    (hreading : p.reading bs = some (sel, full)) :
    FilledFrom offset bs p (p.fill (.start offset bs)).2 ↔ full = true := by
  have hfill := Packet.fill_start hplain offset hbs
  rw [hreading] at hfill
  rcases Packet.reading_cases hreading with ⟨rfl, hrest, hfull⟩ |
    ⟨k, sp, rfl, hsize, hsel, hsp, hfull⟩
  · exact filledFrom_header hplain offset hbs hrest hfull hfill.2
  · exact filledFrom_subpacket hplain offset hbs hsize hsel hsp hfull

end Packet

theorem Packet.isSome_reading_iff {p : Packet} {bs : List UInt8} :
    (p.reading bs).isSome ↔ p.Full bs ∨ p.Short bs := by
  rw [Option.isSome_iff_exists]
  constructor
  · rintro ⟨⟨sel, full⟩, h⟩
    cases full with
    | false => exact Or.inr ⟨sel, h⟩
    | true => exact Or.inl ⟨sel, h⟩
  · rintro (⟨sel, h⟩ | ⟨sel, h⟩)
    · exact ⟨_, h⟩
    · exact ⟨_, h⟩

theorem Packet.Full.not_short {p : Packet} {bs : List UInt8} (h : p.Full bs) : ¬ p.Short bs := by
  rintro ⟨sel, hshort⟩
  obtain ⟨sel', hfull⟩ := h
  rw [hfull] at hshort
  cases hshort

/-- The packet that `Process` returns has been filled from the payload. -/
def ProcessFills (d : ProtocolDefinition) (offset : UInt32) (bs : List UInt8) : Prop :=
  ∀ i p', (d.process offset bs).1 = some i → (d.process offset bs).2.packets[i]? = some p' →
    ∃ p, d.packets[i]? = some p ∧ FilledFrom offset bs p p'

/-- The packet returned has been filled from the payload if and only if every packet that the
payload is too short for comes after one that it fills. -/
theorem process_filled_iff {d : ProtocolDefinition} (hplain : d.Plain) (offset : UInt32)
    {bs : List UInt8} (hbs : bs.length < 2 ^ 31) :
    d.ProcessFills offset bs ↔ ∀ (i : Nat) (p : Packet), d.packets[i]? = some p →
      p.Short bs → ∃ (j : Nat) (q : Packet), j < i ∧ d.packets[j]? = some q ∧ q.Full bs := by
  have hfirst := fst_process hplain offset hbs
  constructor
  · intro h i p hp hshort
    -- the first packet that reads the payload is not a short one
    have hsome : ((d.process offset bs).1).isSome := by
      rw [hfirst, List.findIdx?_isSome, List.any_eq_true]
      exact ⟨p, List.mem_of_getElem? hp, Packet.isSome_reading_iff.2 (Or.inr hshort)⟩
    obtain ⟨j, hj⟩ := Option.isSome_iff_exists.1 hsome
    obtain ⟨q, hq, hread, hbefore⟩ := List.findIdx?_eq_some.1 (hfirst.symm.trans hj)
    have hpacket := packets_process hj
    rw [hq] at hpacket
    obtain ⟨q', hq', hfilled⟩ := h j _ hj hpacket
    rw [hq] at hq'
    cases hq'
    obtain ⟨⟨sel, full⟩, hreading⟩ := Option.isSome_iff_exists.1 hread
    obtain rfl := (Packet.filledFrom_iff (hplain q (List.mem_of_getElem? hq)) offset hbs
      hreading).1 hfilled
    refine ⟨j, q, ?_, hq, sel, hreading⟩
    -- it does not come later, as it is the first, nor is it the short one itself
    rcases Nat.lt_trichotomy j i with hlt | rfl | hgt
    · exact hlt
    · rw [hp] at hq
      cases hq
      exact absurd hshort (Packet.Full.not_short ⟨sel, hreading⟩)
    · have hnot := hbefore i p hgt hp
      rw [Packet.isSome_reading_iff.2 (Or.inr hshort)] at hnot
      cases hnot
  · intro h i p' hi hp'
    obtain ⟨p, hp, hread, hbefore⟩ := List.findIdx?_eq_some.1 (hfirst.symm.trans hi)
    rw [packets_process hi, hp] at hp'
    cases hp'
    refine ⟨p, hp, ?_⟩
    rcases Packet.isSome_reading_iff.1 hread with ⟨sel, hfull⟩ | hshort
    · exact (Packet.filledFrom_iff (hplain p (List.mem_of_getElem? hp)) offset hbs hfull).2 rfl
    · -- a packet that the payload fills would have been returned before
      obtain ⟨j, q, hj, hq, hfull⟩ := h i p hp hshort
      have hnot := hbefore j q hj hq
      rw [Packet.isSome_reading_iff.2 (Or.inl hfull)] at hnot
      cases hnot

/-- A field type u32. -/
def u32 (fixedValue : Option UInt32) : FieldType :=
  .builtin ⟨.unsigned ⟨.four, 1, 1, -1, fixedValue, .hex, none⟩, [0], oneCell⟩

/-- A packet of a type and a value. -/
def typedPacket : Packet where
  name := "typed"
  actions := [.field "type" (u32 (some 1)) 0, .field "value" (u32 none) 0]
  subpackets := []
  numPacketBytes := 8
  lastSubpacket := none
  isField := by
    intro a ha
    rcases List.mem_cons.1 ha with rfl | ha
    · trivial
    · obtain rfl := List.mem_singleton.1 ha
      trivial
  numPacketBytes_eq := rfl
  numPacketBytes_ne h := absurd rfl h

theorem plain_typedPacket : Plain ⟨[typedPacket]⟩ := by
  intro p hp
  obtain rfl := List.mem_singleton.1 hp
  exact ⟨⟨trivial, trivial, trivial⟩, nofun⟩

/-- A payload with both fields fills the packet. -/
theorem process_filled_typed : ProcessFills ⟨[typedPacket]⟩ 0 [1, 0, 0, 0, 5, 0, 0, 0] := by
  apply (process_filled_iff plain_typedPacket 0 (by decide)).2
  intro i p hp hshort
  obtain rfl := List.mem_singleton.1 (List.mem_of_getElem? hp)
  have hfull : typedPacket.Full [1, 0, 0, 0, 5, 0, 0, 0] := ⟨none, by decide⟩
  exact absurd hshort hfull.not_short

/-- The packet is returned also when the payload ends after its type. -/
theorem truncated_accepted :
    ¬ ∀ (d : ProtocolDefinition) (offset : UInt32) (bs : List UInt8), d.Plain → bs.length < 2 ^ 31 →
      d.ProcessFills offset bs := by
  intro hall
  have hplain : typedPacket.Plain := plain_typedPacket _ List.mem_cons_self
  -- the type is there, and the value is not
  have hreading : typedPacket.reading [1, 0, 0, 0] = some (none, false) := by decide
  have hprocess : (ProtocolDefinition.process ⟨[typedPacket]⟩ 0 [1, 0, 0, 0]).1 = some 0 := by
    decide
  obtain ⟨p, hp, hfilled⟩ := hall ⟨[typedPacket]⟩ 0 [1, 0, 0, 0] plain_typedPacket (by decide) 0 _
    hprocess (packets_process hprocess)
  cases hp
  have hfull := (Packet.filledFrom_iff hplain 0 (by decide) hreading).1 hfilled
  cases hfull

end ProtocolDefinition

end OpenRom
